import MiniOS.Vm
import MiniOS.Kalloc.Invariant
import MiniOS.Lib.Total
import Mathlib.Data.Finset.Prod

/-!
# MiniOS.PageTable

The three-level page tables of Sv39 as they lie in physical memory.

`pteSlot` is what a read-only `walk` finds and `pteAt` the entry there.  The
ghost typing `Kind` says what each physical page is used for; a page has one
kind, so two tables never overlap.  `Tree` ties the typing to memory: every
valid entry of a table points to a page of the right kind and every lower
table is pointed to by its parent.  The lemmas about `Tree` and `pteAt` say
what each kind of memory write does to all entries at once.
-/

namespace MiniOS

open Function (update update_self update_of_ne)

/-- The number of pages below `MAXVA`. -/
abbrev maxVpn : Nat := 2 ^ 26

/-- The number of pages below `TRAPFRAME`. -/
abbrev userVpn : Nat := 2 ^ 26 - 2

theorem maxVa_eq : maxVa = maxVpn * pgSize := by decide

theorem trapframeVa_eq : trapframeVa = userVpn * pgSize := by decide

theorem trampolineVa_eq : trampolineVa = (userVpn + 1) * pgSize := by decide

/-! ## walk -/

/-- The entry a read-only `walk` finds. -/
def pteSlot (m : Mem) (root va : Nat) : Option PteRef :=
  if has (m root (px 2 va)) pteV then
    if has (m (pte2pa (m root (px 2 va))) (px 1 va)) pteV then
      some ⟨pte2pa (m (pte2pa (m root (px 2 va))) (px 1 va)), px 0 va⟩
    else none
  else none

theorem walk_false {va : Nat} (h : va < maxVa) (root : Nat) (k : Kmem) :
    walk root va false k = some (pteSlot k.mem root va, k) := by
  rw [walk, if_neg (by omega), walkLevel, Total.bind_apply]
  simp only [readPte, Option.bind_some, pteSlot]
  split
  · rw [walkLevel, Total.bind_apply]
    simp only [readPte, Option.bind_some]
    split <;> rfl
  · rfl

/-- The entry for a virtual page, or 0 where a table is missing. -/
def pteAt (m : Mem) (root vpn : Nat) : Word :=
  match pteSlot m root (vpn * pgSize) with
  | none => 0
  | some r => m r.table r.idx

/-- The entry for a virtual page if it is valid, else 0. -/
def leafPte (m : Mem) (root vpn : Nat) : Word :=
  if has (pteAt m root vpn) pteV then pteAt m root vpn else 0

@[simp] theorem has_leafPte (m : Mem) (root vpn : Nat) :
    has (leafPte m root vpn) pteV = has (pteAt m root vpn) pteV := by
  unfold leafPte
  split
  next h => rfl
  next h => simp [h]

theorem leafPte_of_valid {m : Mem} {root vpn : Nat} (h : has (pteAt m root vpn) pteV) :
    leafPte m root vpn = pteAt m root vpn := if_pos h

theorem px_div (level va : Nat) (h : level ≤ 2) : px level (va / pgSize * pgSize) = px level va := by
  have h' : level = 0 ∨ level = 1 ∨ level = 2 := by omega
  rcases h' with rfl | rfl | rfl <;> simp only [px, pgSize, Fin.mk.injEq] <;> omega

theorem pteSlot_div (m : Mem) (root va : Nat) :
    pteSlot m root (va / pgSize * pgSize) = pteSlot m root va := by
  simp only [pteSlot, px_div 2 va (by decide), px_div 1 va (by decide), px_div 0 va (by decide)]

/-- The page with indices `i`, `j`, `l` at the three levels. -/
def vpnOf (i j l : Fin 512) : Nat := i.val * 2 ^ 18 + j.val * 2 ^ 9 + l.val

theorem vpnOf_px {v : Nat} (h : v < 2 ^ 27) :
    vpnOf (px 2 (v * pgSize)) (px 1 (v * pgSize)) (px 0 (v * pgSize)) = v := by
  simp only [vpnOf, px, pgSize]; omega

theorem px_vpnOf (i j l : Fin 512) : px 2 (vpnOf i j l * pgSize) = i ∧
    px 1 (vpnOf i j l * pgSize) = j ∧ px 0 (vpnOf i j l * pgSize) = l := by
  simp only [vpnOf, px, pgSize, Fin.ext_iff]; omega

theorem vpnOf_inj {i j l i' j' l' : Fin 512} (h : vpnOf i j l = vpnOf i' j' l') :
    i = i' ∧ j = j' ∧ l = l' := by
  simp only [vpnOf, Fin.ext_iff] at *; omega

/-! ## kinds of pages -/

/-- What a physical page is used for. -/
inductive Kind
  /-- on the free list -/
  | free
  /-- mapped by user page tables -/
  | user
  /-- any other use by the kernel, and all memory outside the allocator -/
  | held
  /-- a page of the page table with root `r`, reached by the entries of
  `path`, last one first -/
  | table (r : Nat) (path : List (Fin 512))
deriving DecidableEq

/-- A page-table page. -/
def Kind.isTable : Kind → Bool
  | .table _ _ => true
  | _ => false

/-- An entry that points to a lower table and not to a mapped page. -/
def isDir (w : Word) : Prop := has w (pteR ||| pteW ||| pteX) = false

/-- Memory holds the page tables with the given roots, typed by `kind`. -/
structure Tree (m : Mem) (roots : Finset Nat) (kind : Nat → Kind) : Prop where
  root_iff : ∀ p r, kind p = .table r [] ↔ p = r ∧ r ∈ roots
  depth : ∀ p r path, kind p = .table r path → path.length ≤ 2
  /-- a valid entry above the lowest level leads to the table it names -/
  entry : ∀ p r path, kind p = .table r path → path.length < 2 → ∀ i, has (m p i) pteV →
    isDir (m p i) ∧ kind (pte2pa (m p i)) = .table r (i :: path)
  /-- a lower table is entered in its parent -/
  parent : ∀ p r i path, kind p = .table r (i :: path) →
    ∃ d, kind d = .table r path ∧ has (m d i) pteV ∧ pte2pa (m d i) = p
  /-- nothing is mapped above `MAXVA` -/
  bound : ∀ p r i, kind p = .table r [i] → i.val < 256
  leaf : ∀ p r i j, kind p = .table r [j, i] → ∀ l, has (m p l) pteV →
    vpnOf i j l < userVpn → kind (pte2pa (m p l)) = .user

section
variable {m m' : Mem} {roots : Finset Nat} {kind : Nat → Kind}

theorem Tree.kind_root (h : Tree m roots kind) {r : Nat} (hr : r ∈ roots) : kind r = .table r [] :=
  (h.root_iff r r).mpr ⟨rfl, hr⟩

theorem Tree.mem_roots (h : Tree m roots kind) : ∀ {path : List (Fin 512)} {p r : Nat},
    kind p = .table r path → r ∈ roots
  | [], p, r, hp => ((h.root_iff p r).mp hp).2
  | i :: path, p, r, hp => by
      obtain ⟨d, hd, -⟩ := h.parent p r i path hp
      exact h.mem_roots hd

/-- A table is determined by its root and path. -/
theorem Tree.table_inj (h : Tree m roots kind) : ∀ {path : List (Fin 512)} {p q r : Nat},
    kind p = .table r path → kind q = .table r path → p = q
  | [], p, q, r, hp, hq => by
      rw [((h.root_iff p r).mp hp).1, ((h.root_iff q r).mp hq).1]
  | i :: path, p, q, r, hp, hq => by
      obtain ⟨d, hd, -, hdp⟩ := h.parent p r i path hp
      obtain ⟨e, he, -, heq⟩ := h.parent q r i path hq
      rw [← hdp, ← heq, h.table_inj hd he]

/-- A walk passes through tables of the right kinds. -/
theorem Tree.slot (h : Tree m roots kind) {r va : Nat} {s : PteRef} (hr : r ∈ roots)
    (hs : pteSlot m r va = some s) :
    kind s.table = .table r [px 1 va, px 2 va] ∧ s.idx = px 0 va := by
  unfold pteSlot at hs
  split at hs
  next h2 =>
    have hmid := (h.entry r r [] (h.kind_root hr) (by simp) _ h2).2
    split at hs
    next h1 =>
      cases hs
      exact ⟨(h.entry _ r [_] hmid (by simp) _ h1).2, rfl⟩
    next => cases hs
  next => cases hs

/-- A lowest table is found by the walks through it. -/
theorem Tree.slot_of_table (h : Tree m roots kind) {p r : Nat} {i j : Fin 512}
    (hp : kind p = .table r [j, i]) (l : Fin 512) :
    pteSlot m r (vpnOf i j l * pgSize) = some ⟨p, l⟩ := by
  obtain ⟨d, hd, hv, hdp⟩ := h.parent p r j [i] hp
  obtain ⟨e, he, hev, hed⟩ := h.parent d r i [] hd
  obtain ⟨rfl, -⟩ := (h.root_iff e r).mp he
  obtain ⟨h2, h1, h0⟩ := px_vpnOf i j l
  rw [pteSlot, h2, h1, h0, if_pos hev, hed, if_pos hv, hdp]

theorem Tree.vpnOf_lt (h : Tree m roots kind) {p r : Nat} {i j : Fin 512}
    (hp : kind p = .table r [j, i]) (l : Fin 512) : vpnOf i j l < maxVpn := by
  obtain ⟨d, hd, -⟩ := h.parent p r j [i] hp
  have := h.bound d r i hd
  simp only [vpnOf, maxVpn]; omega

theorem Tree.pteAt_table (h : Tree m roots kind) {p r : Nat} {i j : Fin 512}
    (hp : kind p = .table r [j, i]) (l : Fin 512) : pteAt m r (vpnOf i j l) = m p l := by
  rw [pteAt, h.slot_of_table hp l]

/-- A valid entry of a user page maps a user page. -/
theorem Tree.user (h : Tree m roots kind) {r v : Nat} (hr : r ∈ roots) (hv : v < userVpn)
    (hV : has (pteAt m r v) pteV) : kind (pte2pa (pteAt m r v)) = .user := by
  unfold pteAt at *
  cases hs : pteSlot m r (v * pgSize) with
  | none => simp [hs] at hV
  | some s =>
    simp only [hs] at hV ⊢
    obtain ⟨hk, hidx⟩ := h.slot hr hs
    refine h.leaf _ _ _ _ hk _ hV ?_
    rw [hidx, vpnOf_px (by simp only [userVpn] at hv; omega)]
    exact hv

/-! ### the tables of a root -/

/-- The table that a path leads to, if it is there. -/
def tableAt (m : Mem) (r : Nat) : List (Fin 512) → Option Nat
  | [] => some r
  | i :: path =>
    (tableAt m r path).bind fun d => if has (m d i) pteV then some (pte2pa (m d i)) else none

/-- A page is a table of `r` exactly when a path leads to it. -/
theorem Tree.tableAt_iff (h : Tree m roots kind) {r p : Nat} (hr : r ∈ roots) :
    ∀ {path : List (Fin 512)}, path.length ≤ 2 → (tableAt m r path = some p ↔ kind p = .table r path)
  | [], _ => by
      rw [h.root_iff, and_iff_left hr, tableAt, Option.some.injEq, eq_comm]
  | i :: path, hlen => by
      rw [List.length_cons] at hlen
      rw [tableAt, Option.bind_eq_some_iff]
      constructor
      · rintro ⟨d, hd, hp⟩
        split at hp
        next hV =>
          cases hp
          exact (h.entry d r path ((h.tableAt_iff hr (by omega)).mp hd) (by omega) i hV).2
        next => cases hp
      · intro hp
        obtain ⟨d, hd, hV, hdp⟩ := h.parent p r i path hp
        exact ⟨d, (h.tableAt_iff hr (by omega)).mpr hd, by rw [if_pos hV, hdp]⟩

/-- The page table `r` consists of the same pages in two memories. -/
def SamePages (m m' : Mem) (r : Nat) : Prop :=
  ∀ path : List (Fin 512), path.length ≤ 2 → tableAt m' r path = tableAt m r path

theorem SamePages.refl (m : Mem) (r : Nat) : SamePages m m r := fun _ _ => rfl

theorem SamePages.trans {m'' : Mem} {r : Nat} (h : SamePages m m' r) (h' : SamePages m' m'' r) :
    SamePages m m'' r := fun path hlen => (h' path hlen).trans (h path hlen)

/-- The pages of a page table depend on its tables above the lowest level. -/
theorem Tree.samePages (h : Tree m roots kind) {r : Nat} (hr : r ∈ roots)
    (hm : ∀ p path, kind p = .table r path → path.length < 2 → m' p = m p) : SamePages m m' r
  | [], _ => rfl
  | i :: path, hlen => by
      rw [List.length_cons] at hlen
      rw [tableAt, tableAt, h.samePages hr hm path (by omega)]
      cases hd : tableAt m r path with
      | none => rfl
      | some d =>
        have hk := (h.tableAt_iff hr (by omega)).mp hd
        rw [Option.bind_some, Option.bind_some, hm d path hk (by omega)]

/-- The page tables `roots` other than `ρ` are still there, on the same pages. -/
def Keeps (ρ : Nat) (m : Mem) (roots : Finset Nat) (m' : Mem) (roots' : Finset Nat) : Prop :=
  ∀ r ∈ roots, r ≠ ρ → r ∈ roots' ∧ SamePages m m' r

theorem Keeps.refl (ρ : Nat) (m : Mem) (roots : Finset Nat) : Keeps ρ m roots m roots :=
  fun r hr _ => ⟨hr, SamePages.refl m r⟩

theorem Keeps.trans {ρ : Nat} {m'' : Mem} {roots' roots'' : Finset Nat} (h : Keeps ρ m roots m' roots')
    (h' : Keeps ρ m' roots' m'' roots'') : Keeps ρ m roots m'' roots'' := fun r hr hne => by
  obtain ⟨hr', hs⟩ := h r hr hne
  obtain ⟨hr'', hs'⟩ := h' r hr' hne
  exact ⟨hr'', hs.trans hs'⟩

theorem Tree.keeps (h : Tree m roots kind) {ρ : Nat} {roots' : Finset Nat}
    (hsub : ∀ r ∈ roots, r ≠ ρ → r ∈ roots')
    (hm : ∀ p r path, kind p = .table r path → path.length < 2 → r ≠ ρ → m' p = m p) :
    Keeps ρ m roots m' roots' := fun r hr hne =>
  ⟨hsub r hr hne, h.samePages hr fun p path hp hlen => hm p r path hp hlen hne⟩

/-! ### writes outside the tables -/

theorem Tree.slot_congr (h : Tree m roots kind)
    (hm : ∀ p r path, kind p = .table r path → path.length < 2 → m' p = m p) {r : Nat}
    (hr : r ∈ roots) (va : Nat) : pteSlot m' r va = pteSlot m r va := by
  rw [pteSlot, pteSlot, hm r r [] (h.kind_root hr) (by simp)]
  split
  next h2 =>
    have hmid := (h.entry r r [] (h.kind_root hr) (by simp) _ h2).2
    rw [hm _ r _ hmid (by simp)]
  next => rfl

theorem Tree.pteAt_congr (h : Tree m roots kind) (hm : ∀ p, (kind p).isTable → m' p = m p)
    {r : Nat} (hr : r ∈ roots) (v : Nat) : pteAt m' r v = pteAt m r v := by
  rw [pteAt, pteAt, h.slot_congr (fun p _ _ hp _ => hm p (by rw [hp]; rfl)) hr]
  cases hs : pteSlot m r (v * pgSize) with
  | none => rfl
  | some s =>
    have hk := (h.slot hr hs).1
    simp only
    rw [hm _ (by rw [hk]; rfl)]

theorem Tree.congr (h : Tree m roots kind) (hm : ∀ p, (kind p).isTable → m' p = m p) :
    Tree m' roots kind where
  root_iff := h.root_iff
  depth := h.depth
  bound := h.bound
  entry p r path hp := by
    rw [hm p (by rw [hp]; rfl)]
    exact h.entry p r path hp
  parent p r i path hp := by
    obtain ⟨d, hd, hdv⟩ := h.parent p r i path hp
    exact ⟨d, hd, by rw [hm d (by rw [hd]; rfl)]; exact hdv⟩
  leaf p r i j hp := by
    rw [hm p (by rw [hp]; rfl)]
    exact h.leaf p r i j hp

/-- A page that is no table takes another such use; a user page only once it
is not mapped any more. -/
theorem Tree.retype (h : Tree m roots kind) {p : Nat} {κ : Kind} (hp : (kind p).isTable = false)
    (hκ : κ.isTable = false)
    (huser : kind p = .user → ∀ r ∈ roots, ∀ v < userVpn, has (pteAt m r v) pteV →
      pte2pa (pteAt m r v) ≠ p) :
    Tree m roots (update kind p κ) := by
  have hkeep : ∀ {q r : Nat} {path : List (Fin 512)},
      update kind p κ q = .table r path ↔ kind q = .table r path := by
    intro q r path
    by_cases hq : q = p
    · subst hq
      rw [update_self]
      constructor
      · rintro rfl; cases hκ
      · intro he; rw [he] at hp; cases hp
    · rw [update_of_ne hq]
  refine ⟨fun q r => ?_, fun q r path hq => ?_, fun q r path hq hlen i hV => ?_,
    fun q r i path hq => ?_, fun q r i hq => ?_, fun q r i j hq l hV hlt => ?_⟩
  · rw [hkeep]; exact h.root_iff q r
  · exact h.depth q r path (hkeep.mp hq)
  · rw [hkeep] at hq ⊢
    exact h.entry q r path hq hlen i hV
  · obtain ⟨d, hd, hdv⟩ := h.parent q r i path (hkeep.mp hq)
    exact ⟨d, hkeep.mpr hd, hdv⟩
  · exact h.bound q r i (hkeep.mp hq)
  · rw [hkeep] at hq
    have huk := h.leaf q r i j hq l hV hlt
    have hat := h.pteAt_table hq l
    have hqp : pte2pa (m q l) ≠ p := by
      intro hqp
      refine huser (hqp ▸ huk) r (h.mem_roots hq) _ hlt ?_ ?_
      · rw [hat]; exact hV
      · rw [hat]; exact hqp
    rw [update_of_ne hqp]; exact huk

/-! ### writing a leaf entry -/

section setLeaf
variable {t r : Nat} {i j : Fin 512} (h : Tree m roots kind) (ht : kind t = .table r [j, i])
  (l : Fin 512) (w : Word)
include h ht

omit h in
theorem setWord_dir {p r' : Nat} {path : List (Fin 512)} (hp : kind p = .table r' path)
    (hlen : path.length < 2) : setWord m t l w p = m p :=
  setWord_of_ne (by rintro rfl; rw [ht] at hp; cases hp; simp at hlen) m l w

theorem Tree.pteAt_setLeaf {r' v : Nat} (hr : r' ∈ roots) (hv : v < maxVpn) :
    pteAt (setWord m t l w) r' v = if r' = r ∧ v = vpnOf i j l then w else pteAt m r' v := by
  rw [pteAt, pteAt, h.slot_congr (fun p _ _ hp hlen => setWord_dir ht l w hp hlen) hr]
  cases hs : pteSlot m r' (v * pgSize) with
  | none =>
    rw [if_neg]
    rintro ⟨rfl, rfl⟩
    rw [h.slot_of_table ht l] at hs
    cases hs
  | some s =>
    obtain ⟨hk, hidx⟩ := h.slot hr hs
    simp only
    by_cases hst : s.table = t
    · rw [hst, ht] at hk
      cases hk
      rw [hst, setWord_self]
      have hvpn : v = vpnOf (px 2 (v * pgSize)) (px 1 (v * pgSize)) s.idx := by
        rw [hidx, vpnOf_px (by simp only [maxVpn] at hv; omega)]
      by_cases hl : s.idx = l
      · rw [hl, update_self, if_pos ⟨rfl, by rw [← hl]; exact hvpn⟩]
      · rw [update_of_ne hl, if_neg]
        rintro ⟨-, he⟩
        rw [he] at hvpn
        exact hl ((vpnOf_inj (he ▸ hvpn)).2.2).symm
    · rw [setWord_of_ne hst, if_neg]
      rintro ⟨rfl, rfl⟩
      rw [h.slot_of_table ht l] at hs
      cases hs
      exact hst rfl

variable {l w}

theorem Tree.setLeaf (hw : has w pteV → vpnOf i j l < userVpn → kind (pte2pa w) = .user) :
    Tree (setWord m t l w) roots kind := by
  refine ⟨h.root_iff, h.depth, fun p r' path hp hlen => ?_, fun p r' i' path hp => ?_, h.bound,
    fun p r' i' j' hp l' => ?_⟩
  · rw [setWord_dir ht l w hp hlen]
    exact h.entry p r' path hp hlen
  · obtain ⟨d, hd, hdv⟩ := h.parent p r' i' path hp
    have hlen := h.depth p r' _ hp
    rw [List.length_cons] at hlen
    exact ⟨d, hd, by rw [setWord_dir ht l w hd (by omega)]; exact hdv⟩
  · by_cases hpt : p = t
    · subst hpt
      rw [ht] at hp
      cases hp
      rw [setWord_self]
      by_cases hl : l' = l
      · rw [hl, update_self]; exact hw
      · rw [update_of_ne hl]; exact h.leaf p _ _ _ ht l'
    · rw [setWord_of_ne hpt]
      exact h.leaf p r' i' j' hp l'

end setLeaf

/-! ### new tables -/

section addTable
variable {d p r : Nat} {i : Fin 512} {path : List (Fin 512)} {w : Word} (h : Tree m roots kind)
  (hd : kind d = .table r path) (hlen : path.length < 2) (hold : has (m d i) pteV = false)
  (hp : kind p = .held) (hpw : pte2pa w = p) (hd' : m' d = update (m d) i w)
  (hp' : m' p = zeroPage) (hm : ∀ q, (kind q).isTable → q ≠ d → m' q = m q)
include h hd hlen hold hp hpw hd' hp' hm

/-- A zeroed page becomes the table at an unused entry. -/
theorem Tree.addTable (hi : path = [] → i.val < 256) (hV : has w pteV) (hdir : isDir w) :
    Tree m' roots (update kind p (.table r (i :: path))) := by
  have hpk : ∀ {q r' : Nat} {π : List (Fin 512)}, kind q = .table r' π → q ≠ p := by
    rintro q r' π hq rfl; rw [hp] at hq; cases hq
  have htab : ∀ {q r' : Nat} {π : List (Fin 512)},
      update kind p (.table r (i :: path)) q = .table r' π ↔
        (q = p ∧ r' = r ∧ π = i :: path) ∨ kind q = .table r' π := by
    intro q r' π
    by_cases hq : q = p
    · subst hq
      rw [update_self, hp]
      simp only [Kind.table.injEq, true_and, reduceCtorEq, or_false, eq_comm]
    · rw [update_of_ne hq]; simp [hq]
  -- the entry was unused, so no page had this kind
  have hnone : ∀ q, kind q ≠ .table r (i :: path) := fun q hq => by
    obtain ⟨e, he, heV, -⟩ := h.parent q r i path hq
    rw [h.table_inj he hd, hold] at heV; cases heV
  refine ⟨fun q r' => ?_, fun q r' π hq => ?_, fun q r' π hq hlen' x hx => ?_,
    fun q r' x π hq => ?_, fun q r' x hq => ?_, fun q r' x y hq l hx hlt => ?_⟩
  · rw [htab, h.root_iff]; simp
  · rcases htab.mp hq with ⟨-, -, rfl⟩ | hq
    · simp only [List.length_cons]; omega
    · exact h.depth q r' π hq
  · rcases htab.mp hq with ⟨rfl, -, -⟩ | hq
    · rw [hp'] at hx; simp at hx
    · by_cases hqd : q = d
      · subst hqd
        rw [hd] at hq
        cases hq
        rw [hd'] at hx ⊢
        by_cases hxi : x = i
        · subst hxi
          rw [update_self]
          exact ⟨hdir, htab.mpr (.inl ⟨hpw, rfl, rfl⟩)⟩
        · rw [update_of_ne hxi] at hx ⊢
          obtain ⟨h1, h2⟩ := h.entry q r path hd hlen x hx
          exact ⟨h1, htab.mpr (.inr h2)⟩
      · rw [hm q (by rw [hq]; rfl) hqd] at hx ⊢
        obtain ⟨h1, h2⟩ := h.entry q r' π hq hlen' x hx
        exact ⟨h1, htab.mpr (.inr h2)⟩
  · rcases htab.mp hq with ⟨rfl, rfl, he⟩ | hq
    · cases he
      exact ⟨d, htab.mpr (.inr hd), by rw [hd', update_self]; exact ⟨hV, hpw⟩⟩
    · obtain ⟨e, he, heV, heq⟩ := h.parent q r' x π hq
      refine ⟨e, htab.mpr (.inr he), ?_⟩
      by_cases hed : e = d
      · subst hed
        have hxi : x ≠ i := by
          rintro rfl
          rw [hd] at he
          cases he
          exact hnone q ‹_›
        rw [hd', update_of_ne hxi]
        exact ⟨heV, heq⟩
      · rw [hm e (by rw [he]; rfl) hed]
        exact ⟨heV, heq⟩
  · rcases htab.mp hq with ⟨-, -, he⟩ | hq
    · cases he
      exact hi rfl
    · exact h.bound q r' x hq
  · rcases htab.mp hq with ⟨rfl, -, -⟩ | hq
    · rw [hp'] at hx; simp at hx
    · have hqd : q ≠ d := by
        rintro rfl; rw [hd] at hq; cases hq; simp at hlen
      rw [hm q (by rw [hq]; rfl) hqd] at hx ⊢
      have huk := h.leaf q r' x y hq l hx hlt
      rw [update_of_ne (by rintro he; rw [he, hp] at huk; cases huk)]
      exact huk

omit hp in
/-- The new table is empty, so no entry changes. -/
theorem Tree.pteAt_addTable {r' : Nat} (hr : r' ∈ roots) (v : Nat) :
    pteAt m' r' v = pteAt m r' v := by
  -- the tables above the lowest level differ at one entry only
  have hsame : ∀ {q : Nat} {π : List (Fin 512)} {x : Fin 512}, kind q = .table r' π →
      ¬ (q = d ∧ x = i) → m' q x = m q x := by
    intro q π x hq hne
    by_cases hqd : q = d
    · subst hqd
      rw [hd', update_of_ne fun hx => hne ⟨rfl, hx⟩]
    · rw [hm q (by rw [hq]; rfl) hqd]
  have hkr := h.kind_root hr
  rw [pteAt, pteAt, pteSlot, pteSlot]
  by_cases h2 : r' = d ∧ px 2 (v * pgSize) = i
  · obtain ⟨rfl, h2⟩ := h2
    simp [h2, hd', hold, hpw, hp']
  · rw [hsame hkr h2]
    by_cases hV2 : has (m r' (px 2 (v * pgSize))) pteV
    · have hmid := (h.entry r' r' [] hkr (by simp) _ hV2).2
      rw [if_pos hV2, if_pos hV2]
      by_cases h1 : pte2pa (m r' (px 2 (v * pgSize))) = d ∧ px 1 (v * pgSize) = i
      · rw [h1.1, h1.2, hd', update_self, hold, hpw]
        cases has w pteV <;> simp [hp']
      · rw [hsame hmid h1]
        by_cases hV1 : has (m (pte2pa (m r' (px 2 (v * pgSize)))) (px 1 (v * pgSize))) pteV
        · have hlow := (h.entry _ r' [_] hmid (by simp) _ hV1).2
          rw [if_pos hV1]
          simp only
          rw [hm _ (by rw [hlow]; rfl)]
          rintro he
          rw [he, hd] at hlow
          cases hlow
          simp at hlen
        · rw [if_neg hV1]
    · rw [if_neg hV2, if_neg hV2]

end addTable

/-- A zeroed page becomes an empty page table. -/
theorem Tree.addRoot {p : Nat} (h : Tree m roots kind) (hp : kind p = .held) (hp' : m' p = zeroPage)
    (hm : ∀ q, (kind q).isTable → m' q = m q) :
    Tree m' (insert p roots) (update kind p (.table p [])) := by
  have hpk : ∀ {q r : Nat} {path : List (Fin 512)}, kind q = .table r path → q ≠ p := by
    rintro q r path hq rfl; rw [hp] at hq; cases hq
  have htab : ∀ {q r : Nat} {path : List (Fin 512)},
      update kind p (.table p []) q = .table r path ↔
        (q = p ∧ r = p ∧ path = []) ∨ kind q = .table r path := by
    intro q r path
    by_cases hq : q = p
    · subst hq
      rw [update_self, hp]
      simp only [Kind.table.injEq, true_and, reduceCtorEq, or_false, eq_comm]
    · rw [update_of_ne hq]; simp [hq]
  refine ⟨fun q r => ?_, fun q r path hq => ?_, fun q r path hq hlen i hV => ?_,
    fun q r i path hq => ?_, fun q r i hq => ?_, fun q r i j hq l hV hlt => ?_⟩
  · rw [htab, h.root_iff, Finset.mem_insert]
    constructor
    · rintro (⟨rfl, rfl, -⟩ | ⟨rfl, hr⟩)
      · exact ⟨rfl, .inl rfl⟩
      · exact ⟨rfl, .inr hr⟩
    · rintro ⟨rfl, rfl | hr⟩
      · exact .inl ⟨rfl, rfl, rfl⟩
      · exact .inr ⟨rfl, hr⟩
  · rcases htab.mp hq with ⟨-, -, rfl⟩ | hq
    · simp
    · exact h.depth q r path hq
  · rcases htab.mp hq with ⟨rfl, -, -⟩ | hq
    · rw [hp'] at hV; simp at hV
    · rw [hm q (by rw [hq]; rfl)] at hV ⊢
      obtain ⟨h1, h2⟩ := h.entry q r path hq hlen i hV
      exact ⟨h1, htab.mpr (.inr h2)⟩
  · rcases htab.mp hq with ⟨-, -, he⟩ | hq
    · cases he
    · obtain ⟨d, hd, hdv⟩ := h.parent q r i path hq
      exact ⟨d, htab.mpr (.inr hd), by rw [hm d (by rw [hd]; rfl)]; exact hdv⟩
  · rcases htab.mp hq with ⟨-, -, he⟩ | hq
    · cases he
    · exact h.bound q r i hq
  · rcases htab.mp hq with ⟨-, -, he⟩ | hq
    · cases he
    · rw [hm q (by rw [hq]; rfl)] at hV ⊢
      have huk := h.leaf q r i j hq l hV hlt
      rw [update_of_ne (by rintro he; rw [he, hp] at huk; cases huk)]
      exact huk

theorem pteAt_zeroPage {p : Nat} (hp : m p = zeroPage) (v : Nat) : pteAt m p v = 0 := by
  simp [pteAt, pteSlot, hp]

/-! ### freed tables -/

section dropTable
variable {d p r : Nat} {i : Fin 512} {path : List (Fin 512)} (h : Tree m roots kind)
  (hp : kind p = .table r (i :: path)) (hd : kind d = .table r path)
  (hempty : ∀ l, has (m p l) pteV = false) (hd' : m' d = update (m d) i 0)
  (hm : ∀ q, (kind q).isTable → q ≠ d → q ≠ p → m' q = m q)
include h hp hd hempty hd' hm

/-- A table without valid entries is cut off from its parent. -/
theorem Tree.dropTable {κ : Kind} (hκ : κ.isTable = false) :
    Tree m' roots (update kind p κ) := by
  have htab : ∀ {q r' : Nat} {π : List (Fin 512)},
      update kind p κ q = .table r' π ↔ q ≠ p ∧ kind q = .table r' π := by
    intro q r' π
    by_cases hq : q = p
    · subst hq
      rw [update_self]
      constructor
      · rintro rfl; cases hκ
      · rintro ⟨he, -⟩; exact absurd rfl he
    · rw [update_of_ne hq]; simp [hq]
  have hlen := h.depth p r _ hp
  rw [List.length_cons] at hlen
  have hchild : ∀ q x, kind q ≠ .table r (x :: i :: path) := fun q x hq => by
    obtain ⟨e, he, heV, -⟩ := h.parent q r x _ hq
    rw [h.table_inj he hp, hempty x] at heV; cases heV
  have hne : ∀ {q r' : Nat} {π : List (Fin 512)}, q ≠ p → kind q = .table r' π →
      ¬ (r' = r ∧ π = i :: path) := by
    rintro q r' π hqp hq ⟨rfl, rfl⟩
    exact hqp (h.table_inj hq hp)
  refine ⟨fun q r' => ?_, fun q r' π hq => ?_, fun q r' π hq hlen' x hx => ?_,
    fun q r' x π hq => ?_, fun q r' x hq => ?_, fun q r' x y hq l hx hlt => ?_⟩
  · rw [htab, h.root_iff]
    refine and_iff_right_of_imp ?_
    rintro ⟨rfl, hr⟩ rfl
    have := h.kind_root hr
    rw [hp] at this
    cases this
  · exact h.depth q r' π (htab.mp hq).2
  · obtain ⟨hqp, hq⟩ := htab.mp hq
    by_cases hqd : q = d
    · subst hqd
      rw [hd'] at hx ⊢
      have hxi : x ≠ i := by
        rintro rfl
        rw [update_self] at hx
        simp at hx
      rw [update_of_ne hxi] at hx ⊢
      obtain ⟨h1, h2⟩ := h.entry q r' π hq hlen' x hx
      refine ⟨h1, htab.mpr ⟨fun he => ?_, h2⟩⟩
      rw [he, hp] at h2
      cases h2
      exact hxi rfl
    · rw [hm q (by rw [hq]; rfl) hqd hqp] at hx ⊢
      obtain ⟨h1, h2⟩ := h.entry q r' π hq hlen' x hx
      refine ⟨h1, htab.mpr ⟨fun he => ?_, h2⟩⟩
      rw [he, hp] at h2
      cases h2
      exact hqd (h.table_inj hq hd)
  · obtain ⟨hqp, hk⟩ := htab.mp hq
    obtain ⟨e, he, heV, heq⟩ := h.parent q r' x π hk
    have hep : e ≠ p := by
      rintro rfl
      rw [hp] at he
      cases he
      exact hchild q x hk
    refine ⟨e, htab.mpr ⟨hep, he⟩, ?_⟩
    by_cases hed : e = d
    · subst hed
      have hxi : x ≠ i := by
        rintro rfl
        rw [hd] at he
        cases he
        exact hne hqp hk ⟨rfl, rfl⟩
      rw [hd', update_of_ne hxi]
      exact ⟨heV, heq⟩
    · rw [hm e (by rw [he]; rfl) hed hep]
      exact ⟨heV, heq⟩
  · exact h.bound q r' x (htab.mp hq).2
  · obtain ⟨hqp, hq⟩ := htab.mp hq
    have hqd : q ≠ d := by
      rintro rfl; rw [hd] at hq; cases hq; simp at hlen
    rw [hm q (by rw [hq]; rfl) hqd hqp] at hx ⊢
    have huk := h.leaf q r' x y hq l hx hlt
    rw [update_of_ne (by rintro he; rw [he, hp] at huk; cases huk)]
    exact huk

/-- The table had no valid entries, so none is lost. -/
theorem Tree.leafPte_dropTable {r' : Nat} (hr : r' ∈ roots) (v : Nat) :
    leafPte m' r' v = leafPte m r' v := by
  have hsame : ∀ {q : Nat} {π : List (Fin 512)} {x : Fin 512}, kind q = .table r' π →
      q ≠ p → ¬ (q = d ∧ x = i) → m' q x = m q x := by
    intro q π x hq hqp hne
    by_cases hqd : q = d
    · subst hqd
      rw [hd', update_of_ne fun hx => hne ⟨rfl, hx⟩]
    · rw [hm q (by rw [hq]; rfl) hqd hqp]
  have hdp : pte2pa (m d i) = p := by
    obtain ⟨e, he, -, hep⟩ := h.parent p r i path hp
    rw [← h.table_inj he hd]; exact hep
  have hlen := h.depth p r _ hp
  rw [List.length_cons] at hlen
  have hkr := h.kind_root hr
  have hrp : r' ≠ p := by rintro rfl; rw [hp] at hkr; cases hkr
  suffices hat : pteAt m' r' v = pteAt m r' v ∨
      (has (pteAt m' r' v) pteV = false ∧ has (pteAt m r' v) pteV = false) by
    rcases hat with hat | ⟨h1, h2⟩
    · rw [leafPte, leafPte, hat]
    · rw [leafPte, leafPte, h1, h2]; rfl
  by_cases h2 : r' = d ∧ px 2 (v * pgSize) = i
  · right
    obtain ⟨rfl, h2⟩ := h2
    have hnew : pteSlot m' r' (v * pgSize) = none := by
      rw [pteSlot, h2, hd', update_self]; simp
    have hold : pteSlot m r' (v * pgSize) = none := by
      rw [pteSlot, h2, hdp, hempty]; simp
    rw [pteAt, pteAt, hnew, hold]
    simp
  · by_cases hV2 : has (m r' (px 2 (v * pgSize))) pteV
    · have hmid := (h.entry r' r' [] hkr (by simp) _ hV2).2
      have hmp : pte2pa (m r' (px 2 (v * pgSize))) ≠ p := by
        intro he
        rw [he, hp] at hmid
        cases hmid
        exact h2 ⟨h.table_inj hkr hd, rfl⟩
      by_cases h1 : pte2pa (m r' (px 2 (v * pgSize))) = d ∧ px 1 (v * pgSize) = i
      · right
        have hnew : pteSlot m' r' (v * pgSize) = none := by
          rw [pteSlot, hsame hkr hrp h2, if_pos hV2, h1.1, h1.2, hd', update_self]; simp
        rw [pteAt, pteAt, hnew, pteSlot, if_pos hV2, h1.1, h1.2]
        refine ⟨by simp, ?_⟩
        split
        · simp
        next s hs =>
          split at hs
          · cases hs
            simp only [hdp]
            exact hempty _
          · cases hs
      · left
        have hslot : pteSlot m' r' (v * pgSize) = pteSlot m r' (v * pgSize) := by
          rw [pteSlot, pteSlot, hsame hkr hrp h2, if_pos hV2, if_pos hV2, hsame hmid hmp h1]
        rw [pteAt, pteAt, hslot]
        cases hs : pteSlot m r' (v * pgSize) with
        | none => rfl
        | some s =>
          have hlow := (h.slot hr hs).1
          simp only
          rw [hm _ (by rw [hlow]; rfl)]
          · rintro he
            rw [he, hd] at hlow
            cases hlow
            simp at hlen
          · rintro he
            rw [pteSlot, if_pos hV2] at hs
            split at hs
            next hV1 =>
              cases hs
              simp only at he hlow
              rw [he, hp] at hlow
              cases hlow
              exact h1 ⟨h.table_inj hmid hd, rfl⟩
            next => cases hs
    · left
      have hslot : pteSlot m' r' (v * pgSize) = pteSlot m r' (v * pgSize) := by
        rw [pteSlot, pteSlot, hsame hkr hrp h2, if_neg hV2, if_neg hV2]
      have hnone : pteSlot m r' (v * pgSize) = none := by rw [pteSlot, if_neg hV2]
      rw [pteAt, pteAt, hslot, hnone]

end dropTable

/-- A root without valid entries is no page table any more. -/
theorem Tree.dropRoot {r : Nat} (h : Tree m roots kind) (hr : r ∈ roots)
    (hempty : ∀ i, has (m r i) pteV = false) (hm : ∀ q, (kind q).isTable → q ≠ r → m' q = m q)
    {κ : Kind} (hκ : κ.isTable = false) :
    Tree m' (roots.erase r) (update kind r κ) ∧
      ∀ r' ∈ roots.erase r, ∀ v, pteAt m' r' v = pteAt m r' v := by
  have hkr := h.kind_root hr
  have htab : ∀ {q r' : Nat} {π : List (Fin 512)},
      update kind r κ q = .table r' π ↔ q ≠ r ∧ kind q = .table r' π := by
    intro q r' π
    by_cases hq : q = r
    · subst hq
      rw [update_self]
      constructor
      · rintro rfl; cases hκ
      · rintro ⟨he, -⟩; exact absurd rfl he
    · rw [update_of_ne hq]; simp [hq]
  -- no table of this root is left besides the root itself
  have honly : ∀ {π : List (Fin 512)} {q : Nat}, kind q = .table r π → q = r := by
    intro π
    induction π with
    | nil => intro q hq; exact ((h.root_iff q r).mp hq).1
    | cons x π ih =>
      intro q hq
      obtain ⟨e, he, heV, -⟩ := h.parent q r x π hq
      rw [ih he, hempty x] at heV
      cases heV
  constructor
  · refine ⟨fun q r' => ?_, fun q r' π hq => ?_, fun q r' π hq hlen' x hx => ?_,
      fun q r' x π hq => ?_, fun q r' x hq => ?_, fun q r' x y hq l hx hlt => ?_⟩
    · rw [htab, h.root_iff, Finset.mem_erase]
      constructor
      · rintro ⟨hne, rfl, hr'⟩; exact ⟨rfl, hne, hr'⟩
      · rintro ⟨rfl, hne, hr'⟩; exact ⟨hne, rfl, hr'⟩
    · exact h.depth q r' π (htab.mp hq).2
    · obtain ⟨hqr, hq⟩ := htab.mp hq
      rw [hm q (by rw [hq]; rfl) hqr] at hx ⊢
      obtain ⟨h1, h2⟩ := h.entry q r' π hq hlen' x hx
      refine ⟨h1, htab.mpr ⟨fun he => ?_, h2⟩⟩
      rw [he, hkr] at h2
      cases h2
    · obtain ⟨hqr, hk⟩ := htab.mp hq
      obtain ⟨e, he, hev⟩ := h.parent q r' x π hk
      have her : e ≠ r := by
        rintro rfl
        rw [hkr] at he
        cases he
        exact hqr (honly hk)
      exact ⟨e, htab.mpr ⟨her, he⟩, by rw [hm e (by rw [he]; rfl) her]; exact hev⟩
    · exact h.bound q r' x (htab.mp hq).2
    · obtain ⟨hqr, hq⟩ := htab.mp hq
      rw [hm q (by rw [hq]; rfl) hqr] at hx ⊢
      have huk := h.leaf q r' x y hq l hx hlt
      rw [update_of_ne (by rintro he; rw [he, hkr] at huk; cases huk)]
      exact huk
  · intro r' hr' v
    obtain ⟨hne, hr'⟩ := Finset.mem_erase.mp hr'
    have hkr' := h.kind_root hr'
    have htr : ∀ {q : Nat} {π : List (Fin 512)}, kind q = .table r' π → m' q = m q := fun hq =>
      hm _ (by rw [hq]; rfl) (by rintro rfl; rw [hkr] at hq; cases hq; exact hne rfl)
    have hslot : pteSlot m' r' (v * pgSize) = pteSlot m r' (v * pgSize) := by
      rw [pteSlot, pteSlot, htr hkr']
      split
      next hV2 => rw [htr (h.entry r' r' [] hkr' (by simp) _ hV2).2]
      next => rfl
    rw [pteAt, pteAt, hslot]
    cases hs : pteSlot m r' (v * pgSize) with
    | none => rfl
    | some s =>
      simp only
      rw [htr (h.slot hr' hs).1]

end

end MiniOS
