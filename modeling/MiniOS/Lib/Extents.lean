import Mathlib.Data.List.Basic
import Mathlib.Data.List.Induction
import Mathlib.Tactic.Common

/-!
# MiniOS.Lib.Extents

Sorted lists of extents: the mathematics of an address-ordered free list,
in abstract units.

A `Block` covers the half-open interval `[start, fin)`.  A list is
`Canonical` when its blocks are non-empty, ascending, and separated by at
least one unit, so the list is the unique maximally coalesced description
of the set it covers.  The operations are the ones an allocator needs:

* `insert` — add an interval, merging it with its neighbours;
* `bestFit` — the first block of least sufficient length;
* `carve` — cut the front off a block.

Each keeps `Canonical` and changes `Covers` by exactly the interval it is
about.
-/

namespace Extents

/-- The interval `[start, start + len)`. -/
structure Block where
  start : Nat
  len : Nat
deriving DecidableEq, Repr

namespace Block

def fin (b : Block) : Nat := b.start + b.len

/-- `x` lies in the block. -/
def Has (b : Block) (x : Nat) : Prop := b.start ≤ x ∧ x < b.fin

instance (b : Block) (x : Nat) : Decidable (b.Has x) := inferInstanceAs (Decidable (_ ∧ _))

/-- A gap of at least one unit separates `a` from the later `b`. -/
def Before (a b : Block) : Prop := a.fin < b.start

end Block

open Block

/-- Some block of the list contains `x`. -/
def Covers (bs : List Block) (x : Nat) : Prop := ∃ b ∈ bs, b.Has x

@[simp] theorem covers_nil (x : Nat) : ¬ Covers [] x := by simp [Covers]

@[simp] theorem covers_cons (b : Block) (bs : List Block) (x : Nat) :
    Covers (b :: bs) x ↔ b.Has x ∨ Covers bs x := by simp [Covers]

/-- Non-empty blocks, ascending and pairwise separated. -/
structure Canonical (bs : List Block) : Prop where
  pos : ∀ b ∈ bs, 0 < b.len
  sep : bs.Pairwise Before

theorem canonical_nil : Canonical [] := ⟨by simp, List.Pairwise.nil⟩

variable {b c a : Block} {bs as : List Block} {n : Nat}

theorem canonical_cons :
    Canonical (b :: bs) ↔ 0 < b.len ∧ (∀ c ∈ bs, b.Before c) ∧ Canonical bs := by
  constructor
  · rintro ⟨hpos, hsep⟩
    rw [List.pairwise_cons] at hsep
    exact ⟨hpos b (by simp), hsep.1, fun c hc => hpos c (by simp [hc]), hsep.2⟩
  · rintro ⟨hb, hbc, hpos, hsep⟩
    refine ⟨fun c hc => ?_, List.pairwise_cons.mpr ⟨hbc, hsep⟩⟩
    rcases List.mem_cons.mp hc with rfl | hc
    · exact hb
    · exact hpos c hc

theorem Canonical.tail (h : Canonical (b :: bs)) : Canonical bs :=
  (canonical_cons.mp h).2.2

/-- Two blocks of a canonical list that share a unit are one block. -/
theorem Canonical.eq_of_has (h : Canonical bs) {x : Nat}
    (hb : b ∈ bs) (hc : c ∈ bs) (hbx : b.Has x) (hcx : c.Has x) : b = c := by
  induction bs with
  | nil => simp at hb
  | cons a as ih =>
    obtain ⟨_, hsep, hcan⟩ := canonical_cons.mp h
    rcases List.mem_cons.mp hb with hba | hba <;> rcases List.mem_cons.mp hc with hca | hca
    · rw [hba, hca]
    · have := hsep c hca
      simp only [Before, Has, hba] at this hbx hcx; omega
    · have := hsep b hba
      simp only [Before, Has, hca] at this hbx hcx; omega
    · exact ih hcan hba hca

/-- A block of a canonical list is found again by its start. -/
theorem Canonical.eq_of_start (h : Canonical bs)
    (hb : b ∈ bs) (hc : c ∈ bs) (hs : b.start = c.start) : b = c := by
  have hbp := h.pos b hb
  have hcp := h.pos c hc
  exact h.eq_of_has (x := b.start) hb hc (by simp only [Has, fin]; omega)
    (by simp only [Has, fin]; omega)

/-! ## uniqueness -/

/-- Two blocks of a canonical list are the same or lie apart. -/
theorem Canonical.eq_or_before (h : Canonical bs) (hb : b ∈ bs)
    (hc : c ∈ bs) : b = c ∨ b.Before c ∨ c.Before b := by
  induction bs with
  | nil => simp at hb
  | cons a as ih =>
    obtain ⟨-, hsep, hcan⟩ := canonical_cons.mp h
    rcases List.mem_cons.mp hb with hba | hba <;> rcases List.mem_cons.mp hc with hca | hca
    · exact .inl (hba.trans hca.symm)
    · exact .inr (.inl (hba ▸ hsep c hca))
    · exact .inr (.inr (hca ▸ hsep b hba))
    · exact ih hcan hba hca

theorem Canonical.start_le (h : Canonical (a :: as)) {x : Nat}
    (hx : Covers (a :: as) x) : a.start ≤ x := by
  obtain ⟨b, hb, hbx⟩ := hx
  rcases List.mem_cons.mp hb with rfl | hb
  · exact hbx.1
  · have := (canonical_cons.mp h).2.1 b hb
    simp only [Before, Has, fin] at *; omega

/-- The first block ends at a unit that is not covered. -/
theorem Canonical.not_covers_fin (h : Canonical (a :: as)) :
    ¬ Covers (a :: as) a.fin := by
  rintro ⟨b, hb, hbx⟩
  rcases List.mem_cons.mp hb with rfl | hb
  · exact Nat.lt_irrefl _ hbx.2
  · have := (canonical_cons.mp h).2.1 b hb
    simp only [Before, Has] at *; omega

theorem Canonical.covers_tail (h : Canonical (a :: as)) (x : Nat) :
    Covers as x ↔ Covers (a :: as) x ∧ a.fin ≤ x := by
  rw [covers_cons]
  refine ⟨fun hx => ⟨.inr hx, ?_⟩, fun ⟨hx, hle⟩ => hx.resolve_left fun hax => ?_⟩
  · obtain ⟨b, hb, hbx⟩ := hx
    have := (canonical_cons.mp h).2.1 b hb
    simp only [Before, Has] at *; omega
  · exact absurd hax.2 (Nat.not_lt.mpr hle)

/-- A canonical list is determined by what it covers. -/
theorem Canonical.ext (ha : Canonical as) (hb : Canonical bs)
    (h : ∀ x, Covers as x ↔ Covers bs x) : as = bs := by
  have hfirst : ∀ {c : Block} {cs : List Block}, Canonical (c :: cs) → Covers (c :: cs) c.start :=
    fun {c cs} hc => ⟨c, by simp, by have := (canonical_cons.mp hc).1; simp only [Has, fin]; omega⟩
  induction as generalizing bs with
  | nil =>
    cases bs with
    | nil => rfl
    | cons b bs => exact absurd ((h _).mpr (hfirst hb)) (covers_nil _)
  | cons a as ih =>
    cases bs with
    | nil => exact absurd ((h _).mp (hfirst ha)) (covers_nil _)
    | cons b bs =>
      have hstart : a.start = b.start := Nat.le_antisymm
        (ha.start_le ((h _).mpr (hfirst hb))) (hb.start_le ((h _).mp (hfirst ha)))
      -- the block that ends first would leave a unit that the other covers
      have hfin : ¬ a.fin < b.fin ∧ ¬ b.fin < a.fin := by
        have ha0 := (canonical_cons.mp ha).1
        have hb0 := (canonical_cons.mp hb).1
        refine ⟨fun hlt => ha.not_covers_fin ((h _).mpr ⟨b, by simp, ?_, hlt⟩),
          fun hlt => hb.not_covers_fin ((h _).mp ⟨a, by simp, ?_, hlt⟩)⟩ <;>
        · simp only [fin] at *; omega
      have hab : a = b := by
        obtain ⟨s, n⟩ := a
        obtain ⟨t, m⟩ := b
        simp only [fin, Block.mk.injEq] at *; omega
      subst hab
      congr 1
      refine ih ha.tail hb.tail fun x => ?_
      rw [ha.covers_tail, hb.covers_tail, h]

/-- A run of covered units lies in one block. -/
theorem Canonical.exists_block (h : Canonical bs) {s : Nat} (hn : 0 < n)
    (hr : ∀ i < n, Covers bs (s + i)) : ∃ b ∈ bs, b.start ≤ s ∧ s + n ≤ b.fin := by
  induction n with
  | zero => omega
  | succ n ih =>
    obtain ⟨c, hc, hcx⟩ := hr n (by omega)
    rcases Nat.eq_zero_or_pos n with rfl | hpos
    · exact ⟨c, hc, hcx.1, hcx.2⟩
    · obtain ⟨b, hb, hbs, hbf⟩ := ih hpos fun i hi => hr i (by omega)
      refine ⟨b, hb, hbs, ?_⟩
      rcases h.eq_or_before hb hc with rfl | hbc | hcb
      · exact hcx.2
      · simp only [Before, Has] at *; omega
      · simp only [Before, Has] at *; omega

/-! ## merging with the right neighbour -/

/-- Put `b` in front of a list, absorbing the head if it starts where `b` ends. -/
def join (b : Block) : List Block → List Block
  | [] => [b]
  | c :: cs => if b.fin = c.start then ⟨b.start, b.len + c.len⟩ :: cs else b :: c :: cs

theorem covers_join (b : Block) (bs : List Block) (x : Nat) :
    Covers (join b bs) x ↔ b.Has x ∨ Covers bs x := by
  cases bs with
  | nil => simp [join]
  | cons c cs =>
    rw [join]
    split
    · next h =>
        simp only [covers_cons, Has, fin] at h ⊢
        rw [← or_assoc]
        apply or_congr_left
        omega
    · simp

/-- Joining keeps a list canonical when `b` ends no later than the list starts. -/
theorem canonical_join (hb : 0 < b.len)
    (hle : ∀ c ∈ bs, b.fin ≤ c.start) (h : Canonical bs) : Canonical (join b bs) := by
  cases bs with
  | nil => exact canonical_cons.mpr ⟨hb, by simp, h⟩
  | cons c cs =>
    obtain ⟨hc, hsep, hcan⟩ := canonical_cons.mp h
    rw [join]
    split
    · next heq =>
        refine canonical_cons.mpr ⟨by simp only; omega, fun d hd => ?_, hcan⟩
        have := hsep d hd
        simp only [Before, fin] at this heq ⊢; omega
    · next hne =>
        refine canonical_cons.mpr ⟨hb, fun d hd => ?_, h⟩
        have hbc := hle c (by simp)
        rcases List.mem_cons.mp hd with rfl | hd
        · simp only [Before]; omega
        · have := hsep d hd
          simp only [Before, fin] at this hbc ⊢; omega

/-- Every block of a join starts at `b` or further up. -/
theorem start_le_of_mem_join (hb : n ≤ b.start)
    (hbs : ∀ c ∈ bs, n ≤ c.start) : ∀ c ∈ join b bs, n ≤ c.start := by
  cases bs with
  | nil => simpa [join] using hb
  | cons c cs =>
    rw [join]
    intro d hd
    split at hd
    · rcases List.mem_cons.mp hd with rfl | hd
      · exact hb
      · exact hbs d (by simp [hd])
    · rcases List.mem_cons.mp hd with rfl | hd
      · exact hb
      · exact hbs d hd

/-! ## insertion -/

/-- Insert an interval by address, merging with both neighbours. -/
def insert (b : Block) : List Block → List Block
  | [] => [b]
  | a :: as => if a.start < b.start then join a (insert b as) else join b (a :: as)

/-- `b` shares no unit with the list. -/
def Apart (b : Block) (bs : List Block) : Prop := ∀ c ∈ bs, b.fin ≤ c.start ∨ c.fin ≤ b.start

theorem apart_of_not_covers (h : Canonical bs) (hb : 0 < b.len)
    (hn : ∀ x, b.Has x → ¬ Covers bs x) : Apart b bs := by
  intro c hc
  have hcp := h.pos c hc
  by_contra hcon
  have hmax : b.Has (max b.start c.start) ∧ c.Has (max b.start c.start) := by
    simp only [Has, fin] at hcon ⊢; omega
  exact hn _ hmax.1 ⟨c, hc, hmax.2⟩

theorem covers_insert (b : Block) (bs : List Block) (x : Nat) :
    Covers (insert b bs) x ↔ b.Has x ∨ Covers bs x := by
  induction bs with
  | nil => simp [insert]
  | cons a as ih =>
    rw [insert]
    split
    · rw [covers_join, ih, covers_cons]; tauto
    · rw [covers_join]

/-- Insertion never reaches below both the list and the new block. -/
theorem start_le_of_mem_insert (hb : n ≤ b.start)
    (hbs : ∀ c ∈ bs, n ≤ c.start) : ∀ c ∈ insert b bs, n ≤ c.start := by
  induction bs with
  | nil => simpa [insert] using hb
  | cons a as ih =>
    rw [insert]
    split
    · exact start_le_of_mem_join (hbs a (by simp)) (ih fun c hc => hbs c (by simp [hc]))
    · exact start_le_of_mem_join hb hbs

theorem canonical_insert (hb : 0 < b.len) (hap : Apart b bs)
    (h : Canonical bs) : Canonical (insert b bs) := by
  induction bs with
  | nil => exact canonical_cons.mpr ⟨hb, by simp, h⟩
  | cons a as ih =>
    obtain ⟨ha, hsep, hcan⟩ := canonical_cons.mp h
    have hapa := hap a (by simp)
    have hap' : Apart b as := fun c hc => hap c (by simp [hc])
    rw [insert]
    split
    · next hlt =>
        -- `a` stays in front: everything the insertion produces lies above it
        refine canonical_join ha (start_le_of_mem_insert ?_ fun c hc => ?_) (ih hap' hcan)
        · simp only [fin] at hapa ⊢; omega
        · have := hsep c hc
          simp only [Before, fin] at this ⊢; omega
    · next hge =>
        refine canonical_join hb (fun c hc => ?_) h
        have hba : b.fin ≤ a.start := by simp only [fin] at hapa ⊢; omega
        rcases List.mem_cons.mp hc with rfl | hc
        · exact hba
        · have := hsep c hc
          simp only [Before, fin] at this hba ⊢; omega

/-- A block that does not touch the head of the list is simply consed on. -/
theorem join_of_before {xs : List Block} (h : ∀ c ∈ xs, a.Before c) :
    join a xs = a :: xs := by
  cases xs with
  | nil => rfl
  | cons c cs =>
    have := h c (by simp)
    rw [join, if_neg (by simp only [Before] at this; omega)]

/-- Insertion at a known position: the block merges right, then into its
left neighbour; the blocks further left are not looked at. -/
theorem insert_append {pre post : List Block} (hpre : ∀ a ∈ pre, a.start < b.start)
    (hpost : ∀ c ∈ post, b.start ≤ c.start) :
    insert b (pre ++ post) = pre.foldr join (join b post) := by
  induction pre with
  | nil =>
    cases post with
    | nil => rfl
    | cons c cs =>
      have := hpost c (by simp)
      simp only [List.nil_append, List.foldr_nil]
      rw [insert, if_neg (by omega)]
  | cons a as ih =>
    rw [List.cons_append, insert, if_pos (hpre a (by simp)), ih fun c hc => hpre c (by simp [hc]),
      List.foldr_cons]

theorem foldr_join_of_before {pre xs : List Block} (hsep : pre.Pairwise Before)
    (h : ∀ a ∈ pre, ∀ c ∈ xs, a.Before c) : pre.foldr join xs = pre ++ xs := by
  induction pre with
  | nil => rfl
  | cons a as ih =>
    rw [List.pairwise_cons] at hsep
    rw [List.foldr_cons, ih hsep.2 fun c hc => h c (by simp [hc]), List.cons_append]
    refine join_of_before fun c hc => ?_
    rcases List.mem_append.mp hc with hc | hc
    · exact hsep.1 c hc
    · exact h a (by simp) c hc

/-- Insertion right after the block `a`. -/
theorem insert_append_concat {pre post : List Block}
    (hcan : (pre ++ a :: post).Pairwise Before) (hab : a.start < b.start)
    (hpost : ∀ c ∈ post, b.start ≤ c.start) :
    insert b (pre ++ a :: post) = pre ++ join a (join b post) := by
  have hsep := List.pairwise_append.mp hcan
  have hpre : ∀ c ∈ pre, c.Before a := fun c hc => hsep.2.2 c hc a (by simp)
  have hlow : ∀ c ∈ pre ++ [a], c.start < b.start := by
    intro c hc
    rcases List.mem_append.mp hc with hc | hc
    · have := hpre c hc
      simp only [Before, fin] at this; omega
    · rw [List.mem_singleton.mp hc]; exact hab
  have heq : pre ++ a :: post = (pre ++ [a]) ++ post := by simp
  rw [heq, insert_append hlow hpost, List.foldr_append]
  refine foldr_join_of_before hsep.1 fun c hc d hd => ?_
  have hd' : a.start ≤ d.start := by
    refine start_le_of_mem_join (Nat.le_refl _) (start_le_of_mem_join (by omega) fun e he => ?_) d hd
    have := hpost e he; omega
  have := hpre c hc
  simp only [Before] at this ⊢; omega

/-! ## best fit -/

/-- One step of the best-fit scan: keep the first block of least sufficient length. -/
def better (n : Nat) (best : Option Block) (c : Block) : Option Block :=
  if n ≤ c.len then
    match best with
    | none => some c
    | some b => if c.len < b.len then some c else some b
  else best

/-- The block a best-fit allocator picks for `n` units. -/
def bestFit (n : Nat) (bs : List Block) : Option Block := bs.foldl (better n) none

/-- `r` is what a best-fit scan of `bs` should end with. -/
def BestOf (n : Nat) (bs : List Block) : Option Block → Prop
  | none => ∀ c ∈ bs, c.len < n
  | some b => b ∈ bs ∧ n ≤ b.len ∧ ∀ c ∈ bs, n ≤ c.len → b.len ≤ c.len

theorem bestOf_better {best : Option Block} (h : BestOf n bs best)
    (c : Block) : BestOf n (bs ++ [c]) (better n best c) := by
  unfold better
  split
  · next hn =>
      cases best with
      | none =>
        refine ⟨by simp, hn, fun d hd hdn => ?_⟩
        rcases List.mem_append.mp hd with hd | hd
        · have := h d hd; omega
        · exact Nat.le_of_eq (by rw [List.mem_singleton.mp hd])
      | some b =>
        obtain ⟨hb, hbn, hmin⟩ := h
        simp only
        split
        · refine ⟨by simp, hn, fun d hd hdn => ?_⟩
          rcases List.mem_append.mp hd with hd | hd
          · have := hmin d hd hdn; omega
          · exact Nat.le_of_eq (by rw [List.mem_singleton.mp hd])
        · refine ⟨by simp [hb], hbn, fun d hd hdn => ?_⟩
          rcases List.mem_append.mp hd with hd | hd
          · exact hmin d hd hdn
          · rw [List.mem_singleton.mp hd]; omega
  · next hn =>
      cases best with
      | none =>
        intro d hd
        rcases List.mem_append.mp hd with hd | hd
        · exact h d hd
        · rw [List.mem_singleton.mp hd]; omega
      | some b =>
        obtain ⟨hb, hbn, hmin⟩ := h
        refine ⟨by simp [hb], hbn, fun d hd hdn => ?_⟩
        rcases List.mem_append.mp hd with hd | hd
        · exact hmin d hd hdn
        · rw [List.mem_singleton.mp hd] at hdn; omega

theorem bestOf_foldl (cs : List Block) : ∀ (bs : List Block) (best : Option Block),
    BestOf n bs best → BestOf n (bs ++ cs) (cs.foldl (better n) best) := by
  induction cs with
  | nil => intro bs best h; simpa using h
  | cons c cs ih =>
    intro bs best h
    simpa using ih (bs ++ [c]) (better n best c) (bestOf_better h c)

/-- The scan finds a sufficient block of least length, or there is none. -/
theorem bestOf_bestFit (n : Nat) (bs : List Block) : BestOf n bs (bestFit n bs) := by
  simpa [bestFit] using bestOf_foldl (n := n) bs [] none (by simp [BestOf])

/-- No block before the chosen one would do as well. -/
theorem bestFit_eq_some (h : bestFit n bs = some b) :
    ∃ xs ys, bs = xs ++ b :: ys ∧ ∀ c ∈ xs, n ≤ c.len → b.len < c.len := by
  induction bs using List.reverseRecOn generalizing b with
  | nil => cases h
  | append_singleton bs c ih =>
    have hbest := bestOf_bestFit n bs
    rw [bestFit, List.foldl_append] at h
    change better n (bestFit n bs) c = some b at h
    unfold better at h
    split at h
    · cases hold : bestFit n bs with
      | none =>
        rw [hold] at h hbest
        cases h
        exact ⟨bs, [], rfl, fun d hd hdn => absurd (hbest d hd) (Nat.not_lt.mpr hdn)⟩
      | some a =>
        rw [hold] at h hbest
        simp only at h
        split at h
        · next hlt =>
            cases h
            exact ⟨bs, [], rfl, fun d hd hdn => Nat.lt_of_lt_of_le hlt (hbest.2.2 d hd hdn)⟩
        · cases h
          obtain ⟨xs, ys, rfl, hxs⟩ := ih hold
          exact ⟨xs, ys ++ [c], by simp, hxs⟩
    · obtain ⟨xs, ys, rfl, hxs⟩ := ih h
      exact ⟨xs, ys ++ [c], by simp, hxs⟩

/-! ## carving -/

/-- Cut `n` units off the front of the block starting at `s`. -/
def carve (s n : Nat) : List Block → List Block
  | [] => []
  | a :: as =>
    if a.start = s then if a.len = n then as else ⟨a.start + n, a.len - n⟩ :: as
    else a :: carve s n as

theorem start_le_of_mem_carve {s : Nat} (hc : c ∈ carve s n bs) :
    ∃ a ∈ bs, a.start ≤ c.start := by
  induction bs with
  | nil => simp [carve] at hc
  | cons a as ih =>
    rw [carve] at hc
    split at hc
    · split at hc
      · exact ⟨c, by simp [hc], Nat.le_refl _⟩
      · rcases List.mem_cons.mp hc with rfl | hc
        · exact ⟨a, by simp, by simp only; omega⟩
        · exact ⟨c, by simp [hc], Nat.le_refl _⟩
    · rcases List.mem_cons.mp hc with rfl | hc
      · exact ⟨c, by simp, Nat.le_refl _⟩
      · obtain ⟨d, hd, hle⟩ := ih hc
        exact ⟨d, by simp [hd], hle⟩

theorem canonical_carve (hb : b ∈ bs) (hn : n ≤ b.len)
    (h : Canonical bs) : Canonical (carve b.start n bs) := by
  induction bs with
  | nil => exact canonical_nil
  | cons a as ih =>
    obtain ⟨ha, hsep, hcan⟩ := canonical_cons.mp h
    rw [carve]
    split
    · next hs =>
        have hab : a = b := h.eq_of_start (by simp) hb hs
        subst hab
        split
        · exact hcan
        · refine canonical_cons.mpr ⟨by simp only; omega, fun c hc => ?_, hcan⟩
          have := hsep c hc
          simp only [Before, fin] at this ⊢; omega
    · next hs =>
        have hb' : b ∈ as := by
          rcases List.mem_cons.mp hb with rfl | hb
          · exact absurd rfl hs
          · exact hb
        refine canonical_cons.mpr ⟨ha, fun c hc => ?_, ih hb' hcan⟩
        obtain ⟨d, hd, hle⟩ := start_le_of_mem_carve hc
        have := hsep d hd
        simp only [Before] at this ⊢; omega

theorem covers_carve (hb : b ∈ bs) (hn : n ≤ b.len)
    (h : Canonical bs) (x : Nat) :
    Covers (carve b.start n bs) x ↔ Covers bs x ∧ ¬ (b.start ≤ x ∧ x < b.start + n) := by
  induction bs with
  | nil => simp at hb
  | cons a as ih =>
    obtain ⟨ha, hsep, hcan⟩ := canonical_cons.mp h
    rw [carve]
    split
    · next hs =>
        have hab : a = b := h.eq_of_start (by simp) hb hs
        subst hab
        -- the rest of the list lies above the block
        have habove : Covers as x → a.fin < x := by
          rintro ⟨c, hc, hx⟩
          have := hsep c hc
          simp only [Before, Has, fin] at this hx ⊢; omega
        split
        · next hlen =>
            rw [covers_cons]
            simp only [Has, fin] at habove ⊢
            constructor
            · intro hx; have := habove hx; exact ⟨Or.inr hx, by omega⟩
            · rintro ⟨hx | hx, hout⟩
              · omega
              · exact hx
        · next hlen =>
            rw [covers_cons, covers_cons]
            simp only [Has, fin] at habove ⊢
            constructor
            · rintro (hx | hx)
              · exact ⟨Or.inl (by omega), by omega⟩
              · have := habove hx; exact ⟨Or.inr hx, by omega⟩
            · rintro ⟨hx | hx, hout⟩
              · exact Or.inl (by omega)
              · exact Or.inr hx
    · next hs =>
        have hb' : b ∈ as := by
          rcases List.mem_cons.mp hb with rfl | hb
          · exact absurd rfl hs
          · exact hb
        have hab := hsep b hb'
        rw [covers_cons, covers_cons, ih hb' hcan]
        simp only [Before, Has, fin] at hab ⊢
        constructor
        · rintro (hx | ⟨hx, hout⟩)
          · exact ⟨Or.inl hx, by omega⟩
          · exact ⟨Or.inr hx, hout⟩
        · rintro ⟨hx | hx, hout⟩
          · exact Or.inl hx
          · exact Or.inr ⟨hx, hout⟩

theorem carve_append {xs ys : List Block} (n : Nat)
    (hxs : ∀ a ∈ xs, a.start ≠ b.start) :
    carve b.start n (xs ++ b :: ys) =
      xs ++ if b.len = n then ys else ⟨b.start + n, b.len - n⟩ :: ys := by
  induction xs with
  | nil => rw [List.nil_append, carve, if_pos rfl, List.nil_append]
  | cons a as ih =>
    rw [List.cons_append, carve, if_neg (hxs a (by simp)), ih fun c hc => hxs c (by simp [hc]),
      List.cons_append]

end Extents
