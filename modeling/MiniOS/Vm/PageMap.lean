import MiniOS.Own
import MiniOS.Lib.Radix

/-!
# MiniOS.Vm.PageMap

A page table as a map from virtual pages to entries.  `IsPageTable` is all that
`walk`, `mappages` and `uvmunmap` need of one: its pages are reached in one way
each, and none of them is on the free list.  What its lowest entries map is
arbitrary, so the kernel's own page table is one.
-/

namespace MiniOS

open Total Extents
open Function (update update_self update_of_ne)

/-- Entries as words of a radix tree. -/
def sv39 : Radix.Format Nat Word := ⟨(has · pteV), pte2pa⟩

/-- A walk follows the path of the address. -/
theorem pteSlot_eq_node (m : Mem) (root va : Nat) :
    pteSlot m root va = (Radix.node sv39 m root (walkPath va 0)).map (⟨·, px 0 va⟩) := by
  simp only [pteSlot, walkPath, Radix.node, sv39, Option.bind_some]
  split
  · rw [Option.bind_some]
    split <;> rfl
  · rfl

theorem pteAt_eq_entry (m : Mem) (root v : Nat) :
    pteAt m root v = (Radix.entry sv39 m root (px 0 (v * pgSize) :: walkPath (v * pgSize) 0)).getD 0 := by
  rw [pteAt, pteSlot_eq_node, Radix.entry]
  cases Radix.node sv39 m root (walkPath (v * pgSize) 0) <;> rfl

theorem recordRmap_eq (k : Kmem) (pa pagetable va : Nat) :
    ∃ rmap, recordRmap k pa pagetable va = { k with reverseMap := rmap } := by
  unfold recordRmap
  split
  · dsimp only
    split
    · exact ⟨_, rfl⟩
    · split
      · exact ⟨_, rfl⟩
      · exact ⟨k.reverseMap, rfl⟩
  · exact ⟨k.reverseMap, rfl⟩

/-- An address counts modulo `2 ^ 64`. -/
theorem pa2pte_congr {a b : Nat} (h : a % 2 ^ 64 = b % 2 ^ 64) : pa2pte a = pa2pte b := by
  have hword : BitVec.ofNat 64 a = BitVec.ofNat 64 b := by
    rw [← BitVec.toNat_inj, BitVec.toNat_ofNat, BitVec.toNat_ofNat, h]
  rw [pa2pte, hword, pa2pte]

/-- The entry that `mappages` stores. -/
def mappedPte (pa : Nat) (perm : Word) : Word := pa2pte pa ||| perm ||| pteV

/-- The entries of `j` pages from page `v` are those that `mappages` stores, the others are as before. -/
def MapsTo (root v pa : Nat) (perm : Word) (j : Nat) (m m' : Mem) : Prop :=
  ∀ x < maxVpn, pteAt m' root x =
    if v ≤ x ∧ x < v + j then mappedPte (pa + (x - v) * pgSize) perm else pteAt m root x

theorem MapsTo.zero {m m' : Mem} {root v pa : Nat} {perm : Word} (h : ∀ x, pteAt m' root x = pteAt m root x) :
    MapsTo root v pa perm 0 m m' := fun x _ => by rw [if_neg (by omega), h]

/-- One page and then the following ones. -/
theorem MapsTo.succ {m m₁ m' : Mem} {root v pa j : Nat} {perm : Word}
    (h₁ : ∀ x < maxVpn, pteAt m₁ root x = if x = v then mappedPte pa perm else pteAt m root x)
    (h : MapsTo root (v + 1) ((pa + pgSize) % 2 ^ 64) perm j m₁ m') : MapsTo root v pa perm (j + 1) m m' := by
  intro x hx
  rw [h x hx]
  by_cases hxv : x = v
  · subst hxv
    rw [if_neg (by omega), h₁ x hx, if_pos rfl, if_pos (by omega), Nat.sub_self, Nat.zero_mul, Nat.add_zero]
  · rw [h₁ x hx, if_neg hxv]
    by_cases hr : v + 1 ≤ x ∧ x < v + 1 + j
    · have hsum : pa + (x - v) * pgSize = pa + pgSize + (x - (v + 1)) * pgSize := by
        simp only [pgSize]
        omega
      rw [if_pos hr, if_pos (by omega), hsum, mappedPte, mappedPte, pa2pte_congr (Nat.mod_add_mod ..)]
    · rw [if_neg hr, if_neg (by omega)]

/-- None of `n` pages from page `v` is mapped in `m'`, and the other entries are as in `m`. -/
def Clears (root v n : Nat) (m m' : Mem) : Prop :=
  ∀ x < maxVpn, if v ≤ x ∧ x < v + n then has (pteAt m' root x) pteV = false
    else pteAt m' root x = pteAt m root x

namespace Clears

variable {m m₁ m' : Mem} {root v n : Nat}

theorem zero : Clears root v 0 m m := fun x _ => by rw [if_neg (by omega)]

theorem of_unmapped (h : has (pteAt m root v) pteV = false) : Clears root v 1 m m := fun x _ => by
  split
  next hx =>
    obtain rfl : x = v := by omega
    exact h
  next => rfl

theorem of_set (h : ∀ x < maxVpn, pteAt m' root x = if x = v then 0 else pteAt m root x) :
    Clears root v 1 m m' := fun x hx => by
  rw [h x hx]
  split
  next hr =>
    rw [if_pos (by omega)]
    simp
  next hr => rw [if_neg (by omega)]

theorem pte_eq (h : Clears root v n m m') {x : Nat} (hx : x < maxVpn) (hout : ¬ (v ≤ x ∧ x < v + n)) :
    pteAt m' root x = pteAt m root x := by
  have := h x hx
  rwa [if_neg hout] at this

/-- One page and then the following ones. -/
theorem succ (h₁ : Clears root v 1 m m₁) (h : Clears root (v + 1) n m₁ m') : Clears root v (n + 1) m m' := by
  intro x hx
  by_cases hin : v + 1 ≤ x ∧ x < v + 1 + n
  · have := h x hx
    rw [if_pos hin] at this
    rwa [if_pos (by omega)]
  · rw [h.pte_eq hx hin]
    by_cases hxv : x = v
    · have := h₁ x hx
      rw [if_pos (by omega)] at this
      rwa [if_pos (by omega)]
    · rw [if_neg (by omega), h₁.pte_eq hx (by omega)]

end Clears

/-- The pages of a range of addresses. -/
theorem page_range {va size : Nat} (hva : va % pgSize = 0) (hsize : size % pgSize = 0) (x : Nat) :
    va ≤ x * pgSize ∧ x * pgSize < va + size ↔ va / pgSize ≤ x ∧ x < va / pgSize + size / pgSize := by
  simp only [pgSize] at *
  omega

section
variable [KernelImage]

/-- `root` is a three-level page table on allocated pages. -/
structure IsPageTable (k : Kmem) (root : Nat) : Prop where
  alloc : AllocInv k
  aligned : root % pgSize = 0
  tree : Radix.Tree sv39 2 k.mem root
  used : ∀ path t, path.length ≤ 2 → Radix.node sv39 k.mem root path = some t → Managed t →
    k.refCount (pa2idx t) ≠ 0

/-- `p` is a page of the page table. -/
def IsTableOf (k : Kmem) (root p : Nat) : Prop :=
  ∃ path : List (Fin 512), path.length ≤ 2 ∧ Radix.node sv39 k.mem root path = some p

variable {k k' : Kmem} {root : Nat}

/-- Different pages have different slots. -/
theorem IsPageTable.slot_inj (h : IsPageTable k root) {v v' : Nat} {s : PteRef} (hv : v < maxVpn)
    (hv' : v' < maxVpn) (hs : pteSlot k.mem root (v * pgSize) = some s)
    (hs' : pteSlot k.mem root (v' * pgSize) = some s) : v = v' := by
  rw [pteSlot_eq_node, Option.map_eq_some_iff] at hs hs'
  obtain ⟨t, ht, rfl⟩ := hs
  obtain ⟨t', ht', he⟩ := hs'
  obtain ⟨rfl, h0⟩ := PteRef.mk.inj he
  have hpath := h.tree _ _ _ (length_walkPath (Nat.zero_le 2) _).le (length_walkPath (Nat.zero_le 2) _).le ht ht'
  simp only [walkPath, List.cons.injEq, and_true] at hpath
  simp only [maxVpn] at hv hv'
  rw [← vpnOf_px (by omega : v < 2 ^ 27), ← vpnOf_px (by omega : v' < 2 ^ 27), h0, hpath.1, hpath.2]

theorem IsPageTable.mod (h : IsPageTable k root) {p : Nat} (hp : IsTableOf k root p) : p % pgSize = 0 := by
  obtain ⟨path, -, hp⟩ := hp
  cases path with
  | nil => exact Option.some_inj.mp hp ▸ h.aligned
  | cons i path =>
    rw [Radix.node, Option.bind_eq_some_iff] at hp
    obtain ⟨d, -, hd⟩ := hp
    split at hd
    · exact Option.some_inj.mp hd ▸ pte2pa_mod _
    · cases hd

/-- No page of the page table is free. -/
theorem IsPageTable.not_free (h : IsPageTable k root) {p : Nat} (hp : IsTableOf k root p) {bs : List Block}
    (hrep : FreeRep k bs) (hex : ∀ x, Managed (x * pgSize) → (k.refCount x = 0 ↔ Covers bs x)) :
    ¬ FreePage bs p := by
  intro hfree
  have hm := freePage_managed hrep hfree
  obtain ⟨path, hlen, hnode⟩ := hp
  refine h.used path p hlen hnode hm ?_
  rw [pa2idx, hex _ (by rw [managed_div hm]; exact hm)]
  exact hfree.2

/-- Writes to allocated pages do not disturb the allocator. -/
theorem AllocInv.frame (h : AllocInv k) (hf : k'.freelist = k.freelist)
    (hr : ∀ x, k'.refCount x = 0 ↔ k.refCount x = 0)
    (hm : ∀ p, Managed p → k.refCount (pa2idx p) = 0 → k'.mem p = k.mem p) : AllocInv k' := by
  obtain ⟨bs, hrep, hex⟩ := h
  refine ⟨bs, hrep.congr hf fun p hp => ?_, fun x hx => (hr x).trans (hex x hx)⟩
  have hman := freePage_managed hrep hp
  refine hm p hman ((hex _ ?_).mpr hp.2)
  rw [pa2idx, managed_div hman]
  exact hman

/-- The state after `walk` has allocated the page `child` and entered it in table `d`. -/
def hang (k : Kmem) (d : Nat) (i : Fin 512) (child : Nat) : Kmem :=
  { k with mem := setWord (update k.mem child zeroPage) d i (pa2pte child ||| pteV) }

/-- The page table has grown: its entries are as before. -/
structure Grown (root : Nat) (k k' : Kmem) : Prop where
  table : IsPageTable k' root
  pte : ∀ v, pteAt k'.mem root v = pteAt k.mem root v

theorem Grown.refl (h : IsPageTable k root) : Grown root k k := ⟨h, fun _ => rfl⟩

theorem Grown.trans {k'' : Kmem} (h : Grown root k k') (h' : Grown root k' k'') : Grown root k k'' :=
  ⟨h'.table, fun v => (h'.pte v).trans (h.pte v)⟩

section
variable (h : IsPageTable k root)
include h

/-- The new table of `walk`. -/
theorem IsPageTable.hung {bs bs' : List Block} {d child : Nat}
    {path : List (Fin 512)} {i : Fin 512} (hrep : FreeRep k bs)
    (hex : ∀ x, Managed (x * pgSize) → (k.refCount x = 0 ↔ Covers bs x)) (hg : GotPage k k' bs bs' child)
    (hd : Radix.node sv39 k.mem root path = some d) (hlen : path.length < 2)
    (hV : has (k.mem d i) pteV = false) :
    Radix.Hung sv39 2 k.mem (hang k' d i child).mem root path i d child := by
  have hframe : ∀ p, IsTableOf k root p → k'.mem p = k.mem p := fun p hp =>
    hg.frame p (h.mod hp) (h.not_free hp hrep hex)
  have hne : ∀ p, IsTableOf k root p → p ≠ child := by
    rintro p hp rfl
    exact h.not_free hp hrep hex hg.was_free
  have hdt : IsTableOf k root d := ⟨path, hlen.le, hd⟩
  have hdm : update k'.mem child zeroPage d = k.mem d := by
    rw [update_of_ne (hne d hdt), hframe d hdt]
  have hself : (hang k' d i child).mem d = update (k.mem d) i (pa2pte child ||| pteV) := by
    refine (setWord_self ..).trans ?_
    rw [hdm]
  have hother : ∀ p, p ≠ d → (hang k' d i child).mem p = update k'.mem child zeroPage p :=
    fun p hp => setWord_of_ne hp ..
  refine ⟨hd, hlen, hV, fun q hq hc => hne child ⟨q, hq, hc⟩ rfl, ?_, ?_, fun j hj => ?_, fun j => ?_,
    fun q t hq ht htd => ?_⟩
  · rw [hself, update_self]
    simp [sv39]
  · rw [hself, update_self]
    exact pte2pa_pa2pte_or (managed_lt hg.managed) hg.managed.1 toNat_pte_lt.1
  · rw [hself, update_of_ne hj]
  · rw [hother child (hne d hdt).symm, update_self]
    simp [sv39]
  · rw [hother t htd, update_of_ne (hne t ⟨q, hq, ht⟩), hframe t ⟨q, hq, ht⟩]

theorem IsPageTable.grown_hang {bs bs' : List Block} {d child : Nat}
    {path : List (Fin 512)} {i : Fin 512} (hrep : FreeRep k bs)
    (hex : ∀ x, Managed (x * pgSize) → (k.refCount x = 0 ↔ Covers bs x))
    (hk : MiniOS.kalloc k = some (child, k')) (hg : GotPage k k' bs bs' child)
    (hd : Radix.node sv39 k.mem root path = some d) (hlen : path.length < 2)
    (hV : has (k.mem d i) pteV = false) :
    Grown root k (hang k' d i child) ∧
      Radix.node sv39 (hang k' d i child).mem root (i :: path) = some child := by
  have hh := h.hung hrep hex hg hd hlen hV
  have hnode := fun {q : List (Fin 512)} (hq : q.length ≤ 2) => hh.node_eq h.tree hq
  have hused : ∀ x, k.refCount x ≠ 0 → k'.refCount x ≠ 0 := fun x hx => by
    rw [hg.ref]
    by_cases hc : x = pa2idx child
    · rw [hc, update_self]
      exact one_ne_zero
    · rwa [update_of_ne hc]
  have hchild : k'.refCount (pa2idx child) ≠ 0 := by
    rw [hg.ref, update_self]
    exact one_ne_zero
  have halloc : AllocInv k' := by
    rcases h.alloc.kalloc with hz | ⟨pa, k₁, hk₁, hinv, -⟩
    · rw [hk] at hz
      exact absurd (Prod.mk.inj (Option.some_inj.mp hz)).1 (managed_ne_zero hg.managed)
    · rw [hk] at hk₁
      rw [(Prod.mk.inj (Option.some_inj.mp hk₁)).2]
      exact hinv
  refine ⟨⟨⟨?_, h.aligned, hh.tree h.tree, fun q t hq ht hm => ?_⟩, fun v => ?_⟩, ?_⟩
  · -- both pages that were written to are in use
    refine halloc.frame rfl (fun _ => Iff.rfl) fun p hm hp => ?_
    have hpc : p ≠ child := by
      rintro rfl
      exact hchild hp
    have hpd : p ≠ d := by
      rintro rfl
      exact hused _ (h.used path p hlen.le hd hm) hp
    exact (setWord_of_ne hpd ..).trans (update_of_ne hpc ..)
  · rw [hnode hq] at ht
    split at ht
    · rw [← Option.some_inj.mp ht]
      exact hchild
    · exact hused _ (h.used q t hq ht hm)
  · rw [pteAt_eq_entry, pteAt_eq_entry, hh.entry_eq h.tree (length_walkPath (Nat.zero_le 2) _)]
    split
    next hq =>
      have hempty : (hang k' d i child).mem child = zeroPage := by
        refine (setWord_of_ne ?_ ..).trans (update_self ..)
        rintro rfl
        exact hh.fresh path hlen.le hd
      rw [hempty, hq, Radix.entry, hh.node_none]
      rfl
    next => rfl
  · rw [hnode (by rw [List.length_cons]; omega), if_pos rfl]

/-- `walk` with `alloc` returns, and entries do not change. -/
theorem IsPageTable.walkLevel {va level d : Nat} (hlevel : level ≤ 2)
    (hd : Radix.node sv39 k.mem root (walkPath va level) = some d) :
    Returns (walkLevel va true level d) k fun r k' => Grown root k k' ∧
      ∀ s, r = some s → pteSlot k'.mem root va = some s := by
  induction level generalizing k d with
  | zero =>
    refine returns_pure ⟨.refl h, fun s hs => ?_⟩
    rw [pteSlot_eq_node, hd]
    exact hs
  | succ level ih =>
    have hpath : walkPath va level = _ := walkPath_succ (by omega) va
    refine returns_bind (a := k.mem d (px (level + 1) va)) (t := k) rfl ?_
    by_cases hV : has (k.mem d (px (level + 1) va)) pteV
    · rw [if_pos hV]
      refine ih h (by omega) ?_
      rw [hpath, Radix.node, hd, Option.bind_some]
      exact if_pos hV
    · rw [if_neg hV, if_pos rfl]
      obtain ⟨bs, hrep, hex⟩ := h.alloc
      rcases kalloc_spec hrep with ⟨-, hk⟩ | ⟨child, k₁, bs', hk, hg⟩
      · refine returns_bind hk ?_
        rw [if_pos rfl]
        exact returns_pure ⟨.refl h, by simp⟩
      · refine returns_bind hk ?_
        rw [if_neg (managed_ne_zero hg.managed)]
        have hlen := length_walkPath hlevel va
        obtain ⟨hgrown, hnode⟩ := h.grown_hang hrep hex hk hg hd (by omega) (by simpa using hV)
        refine returns_bind (a := ()) rfl (returns_bind (a := ()) (t := hang k₁ d _ child) rfl ?_)
        rw [← hpath] at hnode
        refine (ih hgrown.table (by omega) hnode).mono ?_
        rintro r k₂ ⟨hgrown', hslot⟩
        exact ⟨hgrown.trans hgrown', hslot⟩

theorem IsPageTable.walk {va : Nat} (hva : va < maxVa) :
    Returns (walk root va true) k fun r k' => Grown root k k' ∧
      ∀ s, r = some s → pteSlot k'.mem root va = some s := by
  rw [MiniOS.walk, if_neg (by omega)]
  exact h.walkLevel (Nat.le_refl 2) rfl

/-- A store to the slot of page `v`. -/
theorem IsPageTable.setPte {v : Nat} {s : PteRef} (hv : v < maxVpn)
    (hs : pteSlot k.mem root (v * pgSize) = some s) (w : Word) (rmap : Nat → Rmap) :
    IsPageTable { k with mem := setWord k.mem s.table s.idx w, reverseMap := rmap } root ∧
    (∀ p, IsTableOf { k with mem := setWord k.mem s.table s.idx w, reverseMap := rmap } root p ↔
      IsTableOf k root p) ∧
    ∀ x < maxVpn, pteAt (setWord k.mem s.table s.idx w) root x = if x = v then w else pteAt k.mem root x := by
  have hslot := hs
  rw [pteSlot_eq_node, Option.map_eq_some_iff] at hslot
  obtain ⟨t, ht, rfl⟩ := hslot
  have hlen : (walkPath (v * pgSize) 0).length = 2 := length_walkPath (Nat.zero_le 2) _
  have hnode : ∀ q : List (Fin 512), q.length ≤ 2 →
      Radix.node sv39 (setWord k.mem t (px 0 (v * pgSize)) w) root q = Radix.node sv39 k.mem root q :=
    fun q hq => h.tree.node_set ht hlen _ w hq
  refine ⟨⟨?_, h.aligned, h.tree.congr hnode, fun q p hq hp hm => ?_⟩, fun p => ?_, fun x hx => ?_⟩
  · refine h.alloc.frame rfl (fun _ => Iff.rfl) fun p hm hp => setWord_of_ne ?_ ..
    rintro rfl
    exact h.used _ _ hlen.le ht hm hp
  · exact h.used q p hq (by rw [← hnode q hq, hp]) hm
  · exact exists_congr fun q => and_congr_right fun hq => by rw [hnode q hq]
  · rw [pteAt_eq_entry, pteAt_eq_entry]
    rw [show setWord k.mem t (px 0 (v * pgSize)) w =
      update k.mem t (update (k.mem t) (px 0 (v * pgSize)) w) from rfl,
      h.tree.entry_set ht hlen _ w (length_walkPath (Nat.zero_le 2) _)]
    simp only [maxVpn] at hv hx
    by_cases hxv : x = v
    · rw [if_pos hxv, if_pos ⟨by rw [hxv], by rw [hxv]⟩]
      rfl
    · rw [if_neg hxv, if_neg]
      rintro ⟨h0, hpath⟩
      simp only [walkPath, List.cons.injEq, and_true] at hpath
      refine hxv ?_
      rw [← vpnOf_px (by omega : x < 2 ^ 27), ← vpnOf_px (by omega : v < 2 ^ 27), h0, hpath.1, hpath.2]

/-- The loop of `mappages`: it maps its pages from the first one on; it stops at a page that is mapped. -/
theorem IsPageTable.mappagesLoop {v n : Nat} (hn : v + n ≤ maxVpn) (pa : Nat)
    (perm : Word) :
    Unless (∃ x, v ≤ x ∧ x < v + n ∧ has (pteAt k.mem root x) pteV) (mappagesLoop root perm n (v * pgSize) pa) k
      fun ok k' => IsPageTable k' root ∧
        ∃ j, (if ok then j = n else j < n) ∧ MapsTo root v pa perm j k.mem k'.mem := by
  induction n generalizing k v pa with
  | zero => exact unless_pure ⟨h, 0, rfl, .zero fun _ => rfl⟩
  | succ n ih =>
    have hva : v * pgSize < maxVa := by
      rw [maxVa_eq]
      exact Nat.mul_lt_mul_of_pos_right (by omega) (by decide)
    refine (h.walk hva).unless.bind ?_
    rintro r k₁ ⟨hgrown, hslot⟩
    cases r with
    | none => exact unless_pure ⟨hgrown.table, 0, Nat.succ_pos n, .zero hgrown.pte⟩
    | some s =>
      have hs := hslot s rfl
      have hpte : k₁.mem s.table s.idx = pteAt k.mem root v := by
        rw [← hgrown.pte, pteAt, hs]
      refine unless_bind (a := k₁.mem s.table s.idx) (t := k₁) rfl ?_
      by_cases hV : has (k₁.mem s.table s.idx) pteV
      · rw [if_pos hV]
        exact ⟨fun _ => ⟨v, Nat.le_refl v, by omega, by rwa [← hpte]⟩, by rintro _ _ ⟨⟩⟩
      · rw [if_neg hV]
        refine unless_bind (a := ()) rfl ?_
        obtain ⟨rmap, hrmap⟩ := recordRmap_eq
          { k₁ with mem := setWord k₁.mem s.table s.idx (mappedPte pa perm) } pa root (v * pgSize)
        -- with `PTE_U` the reverse map is updated as well
        have hrest : ∀ rmap', Unless (∃ x, v ≤ x ∧ x < v + (n + 1) ∧ has (pteAt k.mem root x) pteV)
            (MiniOS.mappagesLoop root perm n (v * pgSize + pgSize) ((pa + pgSize) % 2 ^ 64))
            { k₁ with mem := setWord k₁.mem s.table s.idx (mappedPte pa perm), reverseMap := rmap' }
            fun ok k' => IsPageTable k' root ∧ ∃ j, (if ok then j = n + 1 else j < n + 1) ∧
              MapsTo root v pa perm j k.mem k'.mem := by
          intro rmap'
          obtain ⟨htable, -, hset⟩ := hgrown.table.setPte (by omega) hs (mappedPte pa perm) rmap'
          have hset' : ∀ x < maxVpn, pteAt (setWord k₁.mem s.table s.idx (mappedPte pa perm)) root x =
              if x = v then mappedPte pa perm else pteAt k.mem root x := fun x hx => by
            rw [hset x hx, hgrown.pte]
          rw [← Nat.succ_mul]
          refine (ih htable (by omega) _).mono ?_ ?_
          · rintro ⟨x, hlo, hhi, hx⟩
            refine ⟨x, by omega, by omega, ?_⟩
            rwa [hset' x (by omega), if_neg (by omega)] at hx
          · rintro ok k' ⟨hk', j, hj, hmaps⟩
            refine ⟨hk', j + 1, ?_, hmaps.succ hset'⟩
            cases ok <;> simp_all
        by_cases hU : has perm pteU
        · rw [if_pos hU]
          refine unless_bind (a := ()) (t := _) (congrArg (fun k => some ((), k)) hrmap) (hrest rmap)
        · rw [if_neg hU]
          exact hrest k₁.reverseMap

end

/-! ## uvmunmap -/

/-- The pages of the page table are as before. -/
structure SameTable (root : Nat) (k k' : Kmem) : Prop where
  table : IsPageTable k' root
  isTable : ∀ p, IsTableOf k' root p ↔ IsTableOf k root p
  slot : ∀ va, pteSlot k'.mem root va = pteSlot k.mem root va
  pte : ∀ v, pteAt k'.mem root v = pteAt k.mem root v

theorem IsPageTable.frame (h : IsPageTable k root) (halloc : AllocInv k')
    (hm : ∀ p, IsTableOf k root p → k'.mem p = k.mem p)
    (hr : ∀ p, IsTableOf k root p → Managed p → k'.refCount (pa2idx p) ≠ 0) : SameTable root k k' := by
  have hnode : ∀ q : List (Fin 512), q.length ≤ 2 →
      Radix.node sv39 k'.mem root q = Radix.node sv39 k.mem root q := fun q hq =>
    Radix.node_congr (fun q d hq hd => hm d ⟨q, hq.le, hd⟩) hq
  have hlen : ∀ va, (walkPath va 0).length ≤ 2 := fun va => (length_walkPath (Nat.zero_le 2) va).le
  have hslot : ∀ va, pteSlot k'.mem root va = pteSlot k.mem root va := fun va => by
    rw [pteSlot_eq_node, pteSlot_eq_node, hnode _ (hlen va)]
  refine ⟨⟨halloc, h.aligned, h.tree.congr hnode, fun q t hq ht hman => ?_⟩, fun p => ?_, hslot, fun v => ?_⟩
  · exact hr t ⟨q, hq, by rw [← hnode q hq, ht]⟩ hman
  · exact exists_congr fun q => and_congr_right fun hq => by rw [hnode q hq]
  · rw [pteAt, pteAt, hslot]
    cases hs : pteSlot k.mem root (v * pgSize) with
    | none => rfl
    | some s =>
      rw [pteSlot_eq_node, Option.map_eq_some_iff] at hs
      obtain ⟨t, ht, rfl⟩ := hs
      dsimp only
      rw [hm t ⟨_, hlen _, ht⟩]

/-- What `kfree` returns from. -/
theorem kfree_some {pa : Nat} (h : kfree k pa = some k') : Managed pa ∧ 0 < k.refCount (pa2idx pa) := by
  rw [kfree, kfreeContig] at h
  split at h
  · cases h
  next hb =>
    have hman : Managed pa := by
      refine ⟨by omega, ?_, ?_⟩
      · simp only [pgRoundUp, pgSize] at *
        omega
      · simp only [pgSize] at *
        omega
    refine ⟨hman, ?_⟩
    rw [kfreeDecrement, Option.bind_eq_some_iff] at h
    obtain ⟨r, hr, -⟩ := h
    rw [Option.bind_eq_some_iff] at hr
    obtain ⟨rc, hrc, -⟩ := hr
    exact (decRefs_some hrc).1 0 Nat.one_pos

/-- `kfree` of a page that is no page of the page table. -/
theorem IsPageTable.kfree (h : IsPageTable k root) {pa : Nat} (hpa : ¬ IsTableOf k root pa)
    (hk : MiniOS.kfree k pa = some k') : SameTable root k k' := by
  obtain ⟨hman, hpos⟩ := kfree_some hk
  by_cases hone : k.refCount (pa2idx pa) = 1
  · obtain ⟨k₁, hk₁, halloc, href⟩ := h.alloc.kfree hman hone
    rw [hk] at hk₁
    obtain rfl := Option.some_inj.mp hk₁
    obtain ⟨bs, hrep, hex⟩ := h.alloc
    have hnf : ¬ FreePage bs pa := fun hf => by
      have := (hex (pa2idx pa) (by rw [pa2idx, managed_div hman]; exact hman)).mpr hf.2
      omega
    obtain ⟨k₂, bs', hk₂, hput⟩ := kfree_last hrep hman hone hnf
    rw [hk] at hk₂
    obtain rfl := Option.some_inj.mp hk₂
    refine h.frame halloc (fun p hp => hput.frame p (h.mod hp) ?_) fun p hp hm => ?_
    · rw [hput.free_iff]
      rintro (hf | rfl)
      · exact h.not_free hp hrep hex hf
      · exact hpa hp
    · rw [href, update_of_ne]
      · obtain ⟨q, hq, hp⟩ := hp
        exact h.used q p hq hp hm
      · refine pa2idx_ne (h.mod hp) hman.1 ?_
        rintro rfl
        exact hpa hp
  · have hmore : 1 < getref k pa := by
      rw [getref]
      omega
    rw [kfree_shared hman hmore] at hk
    obtain rfl := Option.some_inj.mp hk
    refine h.frame (h.alloc.refUpdate hpos ?_) (fun _ _ => rfl) fun p hp hm => ?_
    · rw [getref] at hmore
      omega
    · obtain ⟨q, hq, hp⟩ := hp
      dsimp only
      by_cases hi : pa2idx p = pa2idx pa
      · rw [hi, update_self]
        omega
      · rw [update_of_ne hi]
        exact h.used q p hq hp hm

/-- The loop of `uvmunmap`. -/
theorem IsPageTable.uvmunmapLoop (h : IsPageTable k root) {v n : Nat} (hn : v + n ≤ maxVpn) {doFree : Bool}
    (hfree : doFree = true → ∀ x, v ≤ x → x < v + n → has (pteAt k.mem root x) pteV →
      ¬ IsTableOf k root (pte2pa (pteAt k.mem root x))) :
    Unless (doFree = true) (uvmunmapLoop root doFree n (v * pgSize)) k fun _ k' =>
      IsPageTable k' root ∧ Clears root v n k.mem k'.mem := by
  induction n generalizing k v with
  | zero => exact unless_pure ⟨h, .zero⟩
  | succ n ih =>
    have hva : v * pgSize < maxVa := by
      rw [maxVa_eq]
      exact Nat.mul_lt_mul_of_pos_right (by omega) (by decide)
    -- page `v` is not mapped in `k₁`, the rest is as in `k`
    have hrest : ∀ k₁, IsPageTable k₁ root → (∀ p, IsTableOf k₁ root p ↔ IsTableOf k root p) →
        Clears root v 1 k.mem k₁.mem →
        Unless (doFree = true) (MiniOS.uvmunmapLoop root doFree n (v * pgSize + pgSize)) k₁
          fun _ k' => IsPageTable k' root ∧ Clears root v (n + 1) k.mem k'.mem := by
      intro k₁ h₁ htab hone
      rw [← Nat.succ_mul]
      refine (ih h₁ (by omega) fun hd x hlo hhi hx => ?_).mono id fun _ k' hk' => ⟨hk'.1, hone.succ hk'.2⟩
      rw [hone.pte_eq (by omega) (by omega)] at hx ⊢
      rw [htab]
      exact hfree hd x (by omega) (by omega) hx
    refine unless_bind (walk_false hva root k) ?_
    cases hs : pteSlot k.mem root (v * pgSize) with
    | none => exact hrest k h (fun _ => Iff.rfl) (.of_unmapped (by rw [pteAt, hs]; simp))
    | some s =>
      have hpte : pteAt k.mem root v = k.mem s.table s.idx := by rw [pteAt, hs]
      refine unless_bind (a := k.mem s.table s.idx) (t := k) rfl ?_
      rw [← hpte]
      by_cases hV : has (pteAt k.mem root v) pteV
      · rw [if_neg (by simp [hV])]
        have hclear : ∀ k₁, SameTable root k k₁ →
            Unless (doFree = true) (do writePte s 0; MiniOS.uvmunmapLoop root doFree n (v * pgSize + pgSize)) k₁
              fun _ k' => IsPageTable k' root ∧ Clears root v (n + 1) k.mem k'.mem := by
          intro k₁ h₁
          obtain ⟨htable, htab, hset⟩ := h₁.table.setPte (v := v) (by omega) (by rw [h₁.slot, hs]) 0 k₁.reverseMap
          refine unless_bind (a := ()) rfl (hrest _ htable (fun p => (htab p).trans (h₁.isTable p)) ?_)
          refine .of_set fun x hx => ?_
          rw [hset x hx, h₁.pte]
        cases doFree with
        | false => exact hclear k ⟨h, fun _ => Iff.rfl, fun _ => rfl, fun _ => rfl⟩
        | true =>
          rw [if_pos rfl]
          refine Unless.bind (R := fun _ k₁ => SameTable root k k₁) ⟨fun _ => rfl, fun _ k₁ hk => ?_⟩
            fun _ k₁ h₁ => hclear k₁ h₁
          obtain ⟨k₂, hk₂, he⟩ := Option.map_eq_some_iff.mp hk
          cases he
          exact h.kfree (hfree rfl v (Nat.le_refl v) (by omega) hV) hk₂
      · rw [if_pos (by simp [hV])]
        exact hrest k h (fun _ => Iff.rfl) (.of_unmapped (by simpa using hV))

/-! ## The map -/

/-- `walk`, `PTE2PA` and `PTE_FLAGS` take page `x` to `pa` and `flags`. -/
def Translates (k : Kmem) (root x pa : Nat) (flags : Word) : Prop :=
  ∃ s, walk root (x * pgSize) false k = some (some s, k) ∧ pte2pa (k.mem s.table s.idx) = pa ∧
    pteFlags (k.mem s.table s.idx) = flags

omit [KernelImage] in
theorem translates_of_pte {x pa : Nat} {perm : Word} (hx : x < maxVpn) (hpa : pa % pgSize = 0)
    (hperm : perm.toNat < 1024) (h : pteAt k.mem root x = mappedPte pa perm) :
    Translates k root x (pa % 2 ^ 64) (perm ||| pteV) := by
  have hva : x * pgSize < maxVa := by
    rw [maxVa_eq]
    exact Nat.mul_lt_mul_of_pos_right hx (by decide)
  have hflags : (perm ||| pteV).toNat < 1024 := toNat_or_lt_1024 hperm toNat_pte_lt.1
  have hmod : pa % 2 ^ 64 % pgSize = 0 := by
    simp only [pgSize] at *
    omega
  have hword : mappedPte pa perm = pa2pte (pa % 2 ^ 64) ||| (perm ||| pteV) := by
    rw [mappedPte, BitVec.or_assoc, pa2pte_congr (Nat.mod_mod pa (2 ^ 64)).symm]
  rw [pteAt] at h
  cases hs : pteSlot k.mem root (x * pgSize) with
  | none =>
    rw [hs] at h
    have := congrArg (has · pteV) h
    simp [mappedPte] at this
  | some s =>
    rw [hs] at h
    change k.mem s.table s.idx = mappedPte pa perm at h
    refine ⟨s, ?_, ?_, ?_⟩
    · rw [walk_false hva, hs]
    · rw [h, hword, pte2pa_pa2pte_or (Nat.mod_lt _ (by decide)) hmod hflags]
    · rw [h, hword, pteFlags_pa2pte_or _ hflags]

/-- The pages of `[va, va + size)` are mapped to `[pa, pa + size)`, the other entries are as before. -/
def Mapped (root va size pa : Nat) (perm : Word) (k k' : Kmem) : Prop :=
  ∀ x < maxVpn, if va ≤ x * pgSize ∧ x * pgSize < va + size then
      Translates k' root x ((pa + (x * pgSize - va)) % 2 ^ 64) (perm ||| pteV)
    else pteAt k'.mem root x = pteAt k.mem root x

theorem IsPageTable.mappages (h : IsPageTable k root) {va size pa : Nat} {perm : Word} (hva : va % pgSize = 0)
    (hsize : size % pgSize = 0) (hpa : pa % pgSize = 0) (hmax : va + size ≤ maxVa) (hperm : perm.toNat < 1024) :
    Ensures (mappages root va size pa perm) k fun ok k' => IsPageTable k' root ∧
      ∃ done, (if ok then done = size else done < size) ∧ Mapped root va done pa perm k k' := by
  intro ok k' hrun
  rw [MiniOS.mappages, if_neg (by omega), if_neg (by omega)] at hrun
  split at hrun
  · cases hrun
  · have hv : va / pgSize * pgSize = va := by
      simp only [pgSize] at *
      omega
    have hn : va / pgSize + size / pgSize ≤ maxVpn := by
      simp only [pgSize, maxVpn, maxVa] at *
      omega
    have hloop := (h.mappagesLoop hn pa perm).2
    rw [hv] at hloop
    obtain ⟨htable, j, hj, hmaps⟩ := hloop ok k' hrun
    refine ⟨htable, j * pgSize, ?_, fun x hx => ?_⟩
    · clear hrun hloop hmaps
      split at hj
      next hok =>
        rw [if_pos hok, hj, Nat.div_mul_cancel (Nat.dvd_of_mod_eq_zero hsize)]
      next hok =>
        rw [if_neg hok]
        exact Nat.lt_of_lt_of_le (Nat.mul_lt_mul_of_pos_right hj (by decide)) (Nat.div_mul_le_self ..)
    · have hpte := hmaps x hx
      have hrange := page_range hva (Nat.mul_mod_left j pgSize) x
      rw [Nat.mul_div_cancel j (by decide)] at hrange
      by_cases hin : va / pgSize ≤ x ∧ x < va / pgSize + j
      · rw [if_pos hin] at hpte
        rw [if_pos (hrange.mpr hin)]
        have hoff : (x - va / pgSize) * pgSize = x * pgSize - va := by
          rw [Nat.sub_mul, hv]
        rw [hoff] at hpte
        refine translates_of_pte hx ?_ hperm hpte
        simp only [pgSize] at *
        omega
      · rw [if_neg hin] at hpte
        rwa [if_neg fun hc => hin (hrange.mp hc)]

theorem page_tables_are_maps (h : IsPageTable k root) :
    (∀ va size pa perm k', va % pgSize = 0 → size % pgSize = 0 → pa % pgSize = 0 → va + size ≤ maxVa →
      perm.toNat < 1024 → mappages root va size pa perm k = some (true, k') →
      IsPageTable k' root ∧ Mapped root va size pa perm k k') ∧
    (∀ va npages doFree, va % pgSize = 0 → va + npages * pgSize ≤ maxVa →
      (doFree = true → ∀ x, va ≤ x * pgSize → x * pgSize < va + npages * pgSize →
        has (pteAt k.mem root x) pteV → ¬ IsTableOf k root (pte2pa (pteAt k.mem root x))) →
      Unless (doFree = true) (uvmunmap root va npages doFree) k fun _ k' => IsPageTable k' root ∧
        ∀ x < maxVpn, if va ≤ x * pgSize ∧ x * pgSize < va + npages * pgSize then
            has (pteAt k'.mem root x) pteV = false
          else pteAt k'.mem root x = pteAt k.mem root x) ∧
    (∀ x y s, x < maxVpn → y < maxVpn → walk root (x * pgSize) false k = some (some s, k) →
      walk root (y * pgSize) false k = some (some s, k) → x = y) ∧
    (∀ va k', walk root va true k = some (none, k') →
      IsPageTable k' root ∧ ∀ x, pteAt k'.mem root x = pteAt k.mem root x) ∧
    ∀ va size pa perm k', va % pgSize = 0 → size % pgSize = 0 → pa % pgSize = 0 → va + size ≤ maxVa →
      perm.toNat < 1024 → mappages root va size pa perm k = some (false, k') →
      IsPageTable k' root ∧ ∃ done < size, Mapped root va done pa perm k k' := by
  have hlt : ∀ {x}, x < maxVpn → x * pgSize < maxVa := fun hx => by
    rw [maxVa_eq]
    exact Nat.mul_lt_mul_of_pos_right hx (by decide)
  refine ⟨fun va size pa perm k' hva hsize hpa hmax hperm hrun => ?_,
    fun va npages doFree hva hmax hfree => ?_, fun x y s hx hy hsx hsy => ?_, fun va k' hrun => ?_,
    fun va size pa perm k' hva hsize hpa hmax hperm hrun => ?_⟩
  · obtain ⟨htable, done, hdone, hmapped⟩ := h.mappages hva hsize hpa hmax hperm true k' hrun
    rw [if_pos rfl] at hdone
    exact ⟨htable, hdone ▸ hmapped⟩
  · have hv : va / pgSize * pgSize = va := Nat.div_mul_cancel (Nat.dvd_of_mod_eq_zero hva)
    have hrange := page_range hva (Nat.mul_mod_left npages pgSize)
    simp only [Nat.mul_div_cancel npages (show 0 < pgSize by decide)] at hrange
    have hn : va / pgSize + npages ≤ maxVpn := by
      simp only [pgSize, maxVpn, maxVa] at *
      omega
    rw [uvmunmap, if_neg (by omega)]
    have hloop := h.uvmunmapLoop hn fun hd x hlo hhi => by
      obtain ⟨h1, h2⟩ := (hrange x).mpr ⟨hlo, hhi⟩
      exact hfree hd x h1 h2
    rw [hv] at hloop
    refine hloop.mono id fun _ k' hk' => ⟨hk'.1, fun x hx => ?_⟩
    have := hk'.2 x hx
    simp only [hrange x]
    exact this
  · rw [walk_false (hlt hx)] at hsx
    rw [walk_false (hlt hy)] at hsy
    exact h.slot_inj hx hy (Prod.mk.inj (Option.some_inj.mp hsx)).1 (Prod.mk.inj (Option.some_inj.mp hsy)).1
  · have hva : va < maxVa := by
      by_contra hge
      rw [walk, if_pos (by omega)] at hrun
      cases hrun
    obtain ⟨hgrown, -⟩ := (h.walk hva).of_run hrun
    exact ⟨hgrown.table, hgrown.pte⟩
  · obtain ⟨htable, done, hdone, hmapped⟩ := h.mappages hva hsize hpa hmax hperm false k' hrun
    rw [if_neg (by simp)] at hdone
    exact ⟨htable, done, hdone, hmapped⟩

end

/-- Three free pages, and all other pages zero. -/
def threePages : Kmem where
  mem a i := if a = 0x80400000 ∧ i = 1 then 3 else 0
  refCount x := if 0x80400 ≤ x ∧ x < 0x80403 then 0 else 1
  reverseMap _ := noRmap
  freelist := 0x80400000
  useLock := true

theorem isPageTable_threePages : @IsPageTable sampleImage threePages 0x80500000 := by
  let _ := sampleImage
  have hempty : threePages.mem 0x80500000 = zeroPage := by
    funext i
    simp [threePages]
  have hroot : ∀ path t, Radix.node sv39 threePages.mem 0x80500000 path = some t → path = [] ∧ t = 0x80500000 := by
    intro path
    induction path with
    | nil => exact fun t ht => ⟨rfl, (Option.some_inj.mp ht).symm⟩
    | cons i path ih =>
      intro t ht
      rw [Radix.node, Option.bind_eq_some_iff] at ht
      obtain ⟨d, hd, ht⟩ := ht
      rw [(ih d hd).2, hempty] at ht
      simp [sv39] at ht
  refine ⟨?_, by decide, fun p q t _ _ hp hq => ?_, fun path t _ ht _ => ?_⟩
  · refine allocInv_of_block (b := ⟨0x80400, 3⟩) (by decide) (by decide) (by decide) ⟨rfl, rfl, rfl⟩ fun x => ?_
    simp [Block.Has, Block.fin, threePages]
  · rw [(hroot p t hp).1, (hroot q t hq).1]
  · rw [(hroot path t ht).2]
    decide

/-- Two pages of device registers are mapped. -/
theorem page_tables_are_maps_threePages :
    ∃ k', mappages 0x80500000 0x1000 0x2000 0x10000000 (pteR ||| pteW) threePages = some (true, k') ∧
      Translates k' 0x80500000 2 0x10001000 (pteR ||| pteW ||| pteV) := by
  have hrun : (mappages 0x80500000 0x1000 0x2000 0x10000000 (pteR ||| pteW) threePages).map (·.1) = some true := by
    decide +kernel
  obtain ⟨⟨_, k'⟩, hk', rfl⟩ := Option.map_eq_some_iff.mp hrun
  have h := ((@page_tables_are_maps sampleImage _ _ isPageTable_threePages).1 _ _ _ _ k' (by decide) (by decide)
    (by decide) (by decide) (by decide) hk').2 2 (by decide)
  exact ⟨k', hk', h⟩

end MiniOS
