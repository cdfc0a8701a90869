import MiniOS.Lib.Budget

/-!
# MiniOS.Lib.RefLedger

Reference counting by several holders.  Each cell has a count; a free pool
holds cells nobody uses.  A holder takes a cell out of the pool, drops a
reference, or releases one: the release that brings the count to 0 leaves the
cell with the holder, who puts it back into the pool in a later move.

Whatever the order of moves, counts stay exact (`Sound`).  A plain drop never
returns a cell to the pool, so a drop that brings a count to 0 loses the cell
for good (`clean_iff`).
-/

namespace RefLedger

open Function

/-- Counts, the pool, the references of each holder, and the cells on their
way back to the pool. -/
@[ext]
structure Ledger (ι α : Type*) where
  ref : α → ℕ
  free : Set α
  held : ι → α → ℕ
  freeing : ι → Option α

variable {ι α : Type*} [DecidableEq ι] [DecidableEq α]

namespace Ledger

/-- `i` gets one more reference on `a`. -/
def gain (l : Ledger ι α) (i : ι) (a : α) : ι → α → ℕ :=
  update l.held i (update (l.held i) a (l.held i a + 1))

/-- `i` gives up a reference on `a`, and the count follows. -/
def lose (l : Ledger ι α) (i : ι) (a : α) : Ledger ι α :=
  { l with
    ref := update l.ref a (l.ref a - 1)
    held := update l.held i (update (l.held i) a (l.held i a - 1)) }

end Ledger

/-- One move of one holder.  The flag marks the drop of a last reference. -/
inductive Move : Bool → Ledger ι α → Ledger ι α → Prop
  | still {l : Ledger ι α} : Move false l l
  | take {l : Ledger ι α} (i : ι) (a : α) (h : a ∈ l.free) :
      Move false l { l with ref := update l.ref a 1, free := l.free \ {a}, held := l.gain i a }
  | drop {l : Ledger ι α} (i : ι) (a : α) (h : 0 < l.held i a) :
      Move (l.ref a = 1) l (l.lose i a)
  | release {l : Ledger ι α} (i : ι) (a : α) (h : 0 < l.held i a) (h₁ : l.ref a ≠ 1) :
      Move false l (l.lose i a)
  | releaseLast {l : Ledger ι α} (i : ι) (a : α) (h : 0 < l.held i a) (h₁ : l.ref a = 1)
      (hi : l.freeing i = none) :
      Move false l { l.lose i a with freeing := update l.freeing i (some a) }
  | put {l : Ledger ι α} (i : ι) (a : α) (h : l.freeing i = some a) :
      Move false l { l with free := insert a l.free, freeing := update l.freeing i none }

/-- Counts are exact up to the references `ext` from outside, and cells that
are free or on their way to the pool have none. -/
structure Sound [Fintype ι] (ext : α → ℕ) (l : Ledger ι α) : Prop where
  count : ∀ a, l.ref a = ext a + ∑ i, l.held i a
  free_zero : ∀ a ∈ l.free, l.ref a = 0
  freeing_zero : ∀ i a, l.freeing i = some a → l.ref a = 0 ∧ a ∉ l.free
  freeing_inj : ∀ i j a, l.freeing i = some a → l.freeing j = some a → i = j

/-- `a` has no references, and is neither free nor on its way there. -/
def Lost (l : Ledger ι α) (a : α) : Prop := l.ref a = 0 ∧ a ∉ l.free ∧ ∀ i, l.freeing i ≠ some a

/-- No cell of `C` is lost. -/
def Clean (C : Set α) (l : Ledger ι α) : Prop := ∀ a ∈ C, ¬ Lost l a

variable [Fintype ι] {ext : α → ℕ} {l l' : Ledger ι α}

omit [DecidableEq α] in
/-- Changing what one holder has changes the sum by the difference. -/
theorem sum_update_held (held : ι → α → ℕ) (i : ι) (f : α → ℕ) (a : α) :
    ∑ j, update held i f j a + held i a = ∑ j, held j a + f a :=
  Budget.sum_update (fun g => g a) held i f

variable {i : ι} {a : α}

omit [DecidableEq ι] [DecidableEq α] in
theorem Sound.ref_pos (h : Sound ext l) (hi : 0 < l.held i a) : 0 < l.ref a := by
  have hle := Finset.single_le_sum (f := fun j => l.held j a) (fun _ _ => Nat.zero_le _)
    (Finset.mem_univ i)
  have := h.count a
  omega

theorem Sound.take (h : Sound ext l) (i : ι) (ha : a ∈ l.free) :
    Sound ext { l with ref := update l.ref a 1, free := l.free \ {a}, held := l.gain i a } where
  count b := by
    have hsum := sum_update_held l.held i (update (l.held i) a (l.held i a + 1)) b
    have hb := h.count b
    simp only [Ledger.gain]
    by_cases hba : b = a
    · subst hba
      rw [update_self] at hsum ⊢
      have := h.free_zero b ha
      omega
    · rw [update_of_ne hba] at hsum ⊢
      omega
  free_zero b hb := by
    have hba : b ≠ a := hb.2
    simp only [update_of_ne hba]
    exact h.free_zero b hb.1
  freeing_zero j b hb := by
    obtain ⟨h0, hnf⟩ := h.freeing_zero j b hb
    have hba : b ≠ a := fun e => hnf (e ▸ ha)
    exact ⟨by simp only [update_of_ne hba]; exact h0, fun hf => hnf hf.1⟩
  freeing_inj := h.freeing_inj

theorem Sound.lose (h : Sound ext l) (ha : 0 < l.held i a) :
    Sound ext (l.lose i a) where
  count b := by
    have hsum := sum_update_held l.held i (update (l.held i) a (l.held i a - 1)) b
    have hb := h.count b
    have hpos := h.ref_pos ha
    simp only [Ledger.lose]
    by_cases hba : b = a
    · subst hba
      rw [update_self] at hsum ⊢
      omega
    · rw [update_of_ne hba] at hsum ⊢
      omega
  free_zero b hb := by
    have h0 := h.free_zero b hb
    have hba : b ≠ a := fun e => by
      have := h.ref_pos ha
      rw [e] at h0; omega
    simp only [Ledger.lose, update_of_ne hba]
    exact h0
  freeing_zero j b hb := by
    obtain ⟨h0, hnf⟩ := h.freeing_zero j b hb
    have hba : b ≠ a := fun e => by
      have := h.ref_pos ha
      rw [e] at h0; omega
    exact ⟨by simp only [Ledger.lose, update_of_ne hba]; exact h0, hnf⟩
  freeing_inj := h.freeing_inj

theorem Sound.releaseLast (h : Sound ext l) (ha : 0 < l.held i a)
    (h₁ : l.ref a = 1) :
    Sound ext { l.lose i a with freeing := update l.freeing i (some a) } where
  count := (h.lose ha).count
  free_zero := (h.lose ha).free_zero
  freeing_zero j b hb := by
    by_cases hj : j = i
    · subst hj
      simp only [update_self, Option.some.injEq] at hb
      subst hb
      refine ⟨by simp [Ledger.lose, h₁], fun hf => ?_⟩
      have := h.free_zero a hf
      omega
    · simp only [update_of_ne hj] at hb
      exact (h.lose ha).freeing_zero j b hb
  freeing_inj j k b hj hk := by
    -- nobody else can be freeing `a`: it still had a reference
    have hnot : ∀ m, l.freeing m ≠ some a := fun m hm => by
      have := (h.freeing_zero m a hm).1
      omega
    by_cases hji : j = i <;> by_cases hki : k = i
    · rw [hji, hki]
    · simp only [hji, update_self, update_of_ne hki] at hj hk
      exact absurd (hk.trans hj.symm) (hnot k)
    · simp only [hki, update_self, update_of_ne hji] at hj hk
      exact absurd (hj.trans hk.symm) (hnot j)
    · simp only [update_of_ne hji, update_of_ne hki] at hj hk
      exact h.freeing_inj j k b hj hk

omit [DecidableEq α] in
theorem Sound.put (h : Sound ext l) (ha : l.freeing i = some a) :
    Sound ext { l with free := insert a l.free, freeing := update l.freeing i none } where
  count := h.count
  free_zero b hb := by
    rcases hb with rfl | hb
    · exact (h.freeing_zero i b ha).1
    · exact h.free_zero b hb
  freeing_zero j b hb := by
    by_cases hj : j = i
    · subst hj
      simp at hb
    · simp only [update_of_ne hj] at hb
      obtain ⟨h0, hnf⟩ := h.freeing_zero j b hb
      refine ⟨h0, ?_⟩
      rintro (rfl | hf)
      · exact hj (h.freeing_inj j i b hb ha)
      · exact hnf hf
  freeing_inj j k b hj hk := by
    by_cases hji : j = i
    · simp [hji] at hj
    · by_cases hki : k = i
      · simp [hki] at hk
      · simp only [update_of_ne hji, update_of_ne hki] at hj hk
        exact h.freeing_inj j k b hj hk

theorem Sound.move {leak : Bool} (h : Sound ext l) (hm : Move leak l l') : Sound ext l' := by
  cases hm with
  | still => exact h
  | take i a ha => exact h.take i ha
  | drop i a ha => exact h.lose ha
  | release i a ha _ => exact h.lose ha
  | releaseLast i a ha h₁ _ => exact h.releaseLast ha h₁
  | put i a ha => exact h.put ha

/-! ## what is lost stays lost -/

theorem lost_lose_iff (h : Sound ext l) (ha : 0 < l.held i a) (b : α) :
    Lost (l.lose i a) b ↔ Lost l b ∨ (b = a ∧ l.ref a = 1) := by
  have hpos := h.ref_pos ha
  by_cases hba : b = a
  · subst hba
    have hnf : b ∉ l.free := fun hf => by have := h.free_zero b hf; omega
    have hnfr : ∀ j, l.freeing j ≠ some b := fun j hj => by have := (h.freeing_zero j b hj).1; omega
    simp only [Lost, Ledger.lose, update_self, true_and]
    constructor
    · rintro ⟨h0, -⟩; exact .inr (by omega)
    · rintro (⟨h0, -⟩ | h1)
      · omega
      · exact ⟨by omega, hnf, hnfr⟩
  · simp [Lost, Ledger.lose, hba]

/-- A move keeps the ledger clean exactly when it was clean and the move is
not the drop of a last reference. -/
theorem clean_iff {leak : Bool} {C : Set α} (h : Sound ext l)
    (hC : ∀ i a, 0 < l.held i a → a ∈ C) (hm : Move leak l l') :
    Clean C l' ↔ Clean C l ∧ leak = false := by
  cases hm with
  | still => simp
  | take i a ha =>
    simp only [and_true]
    refine forall₂_congr fun b _ => not_congr ?_
    by_cases hba : b = a
    · subst hba
      simp [Lost, ha]
    · simp [Lost, hba]
  | drop i a ha =>
    simp only [Clean, lost_lose_iff h ha, not_or, decide_eq_false_iff_not]
    exact ⟨fun hc => ⟨fun b hb => (hc b hb).1, fun h1 => (hc a (hC i a ha)).2 ⟨rfl, h1⟩⟩,
      fun hc b hb => ⟨hc.1 b hb, fun hb => hc.2 hb.2⟩⟩
  | release i a ha h₁ =>
    simp only [Clean, lost_lose_iff h ha, not_or, and_true]
    exact ⟨fun hc b hb => (hc b hb).1, fun hc b hb => ⟨hc b hb, fun hb => h₁ hb.2⟩⟩
  | releaseLast i a ha h₁ hi =>
    simp only [and_true]
    refine forall₂_congr fun b _ => not_congr ?_
    by_cases hba : b = a
    · subst hba
      constructor
      · rintro ⟨-, -, hfr⟩
        exact absurd (update_self i (some b) l.freeing) (hfr i)
      · rintro ⟨h0, -⟩; omega
    · have hfr : (∀ j, update l.freeing i (some a) j ≠ some b) ↔ ∀ j, l.freeing j ≠ some b := by
        refine forall_congr' fun j => ?_
        by_cases hj : j = i
        · subst hj
          simp [hi, Ne.symm hba]
        · rw [update_of_ne hj]
      simp [Lost, Ledger.lose, hba, hfr]
  | put i a ha =>
    simp only [and_true]
    refine forall₂_congr fun b _ => not_congr ?_
    by_cases hba : b = a
    · subst hba
      simp only [Lost, Set.mem_insert_iff, true_or, not_true_eq_false, false_and, and_false,
        false_iff, not_and, not_forall, not_not]
      exact fun _ _ => ⟨i, ha⟩
    · have hfr : (∀ j, update l.freeing i none j ≠ some b) ↔ ∀ j, l.freeing j ≠ some b := by
        refine forall_congr' fun j => ?_
        by_cases hj : j = i
        · subst hj
          simp [ha, Ne.symm hba]
        · rw [update_of_ne hj]
      simp [Lost, hba, hfr]

end RefLedger
