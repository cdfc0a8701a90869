import Mathlib.Data.Finset.Card
import Mathlib.Data.Fintype.Card

/-!
# MiniOS.Lib.Aging

Waiting counters under a threshold policy.  In each round one waiting member
is served, its counter restarts, and the counters of the other waiting
members grow by one.  A member is overdue once its counter reaches `θ`, and
overdue members are served first.

At most `θ + 1` waiting members keep every counter at `2 * θ` or below
(`Bounded.le`), whatever the order among the overdue ones.  With `θ + 1`
members that never stop waiting there is an overdue one among them in every
round from `θ` on (`Deep.overdue`), which is enough to starve anybody else.
-/

namespace Aging

variable {ι : Type*}

/-- The members of `C` whose counter has reached `m`. -/
def level (C : Finset ι) (w : ι → ℕ) (m : ℕ) : Finset ι := C.filter fun i => m ≤ w i

theorem mem_level {C : Finset ι} {w : ι → ℕ} {m : ℕ} {i : ι} :
    i ∈ level C w m ↔ i ∈ C ∧ m ≤ w i := Finset.mem_filter

/-! ## A lower bound -/

/-- After `T` rounds of `C` waiting, all but `j` members of `C` have reached
the counter `j`. -/
def Deep (C : Finset ι) (T : ℕ) (w : ι → ℕ) : Prop :=
  ∀ j ≤ T, C.card ≤ (level C w j).card + j

theorem deep_zero (C : Finset ι) (w : ι → ℕ) : Deep C 0 w := by
  intro j hj
  obtain rfl : j = 0 := by omega
  rw [level, Finset.filter_true_of_mem fun i _ => Nat.zero_le _]
  omega

/-- More than `θ` members waiting for `θ` rounds: one of them is overdue. -/
theorem Deep.overdue {C : Finset ι} {T θ : ℕ} {w : ι → ℕ} (h : Deep C T w)
    (hC : θ < C.card) (hT : θ ≤ T) : ∃ i ∈ C, θ ≤ w i := by
  have hpos : 0 < (level C w θ).card := by have := h θ hT; omega
  obtain ⟨i, hi⟩ := Finset.card_pos.mp hpos
  exact ⟨i, mem_level.mp hi⟩

variable [DecidableEq ι]

/-- One round: `b` is served, the others in `A` wait on. -/
def tick (A : Finset ι) (b : ι) (w : ι → ℕ) : ι → ℕ := fun i =>
  if i = b then 0 else if i ∈ A then w i + 1 else w i

theorem Deep.tick {A C : Finset ι} {b : ι} {T : ℕ} {w : ι → ℕ} (h : Deep C T w) (hC : C ⊆ A) :
    Deep C (T + 1) (tick A b w) := by
  rintro (_ | j) hj
  · exact deep_zero C _ 0 le_rfl
  · have hsub : (level C w j).erase b ⊆ level C (Aging.tick A b w) (j + 1) := fun i hi => by
      obtain ⟨hib, hi⟩ := Finset.mem_erase.mp hi
      rw [mem_level] at hi ⊢
      refine ⟨hi.1, ?_⟩
      simp only [Aging.tick, if_neg hib, if_pos (hC hi.1)]
      exact Nat.succ_le_succ hi.2
    have h1 := h j (by omega)
    have h2 := Finset.pred_card_le_card_erase (s := level C w j) (a := b)
    have h3 := Finset.card_le_card hsub
    omega

/-! ## An upper bound -/

/-- For a counter to be `m` over the threshold, all but `θ + 1 - m` members
must be below `m`. -/
def Bounded [Fintype ι] (θ : ℕ) (w : ι → ℕ) : Prop :=
  ∀ x m, 1 ≤ m → θ + m ≤ w x → (level Finset.univ w m).card + m ≤ θ + 1

variable [Fintype ι] {θ : ℕ} {w : ι → ℕ}

section
omit [DecidableEq ι]

theorem Bounded.excess_le {x : ι} {m : ℕ} (h : Bounded θ w) (hm : θ + m ≤ w x) : m ≤ θ := by
  by_contra hlt
  have hx : x ∈ level Finset.univ w m := mem_level.mpr ⟨Finset.mem_univ x, by omega⟩
  have hpos := Finset.card_pos.mpr ⟨x, hx⟩
  have := h x m (by omega) hm
  omega

theorem Bounded.le (h : Bounded θ w) (x : ι) : w x ≤ 2 * θ := by
  by_contra hlt
  have := h.excess_le (x := x) (m := w x - θ) (by omega)
  omega

theorem Bounded.mono {w' : ι → ℕ} (h : Bounded θ w) (hle : ∀ i, w' i ≤ w i) : Bounded θ w' := by
  intro x m hm hx
  have hsub : level Finset.univ w' m ⊆ level Finset.univ w m := fun i hi => by
    rw [mem_level] at hi ⊢
    exact ⟨hi.1, hi.2.trans (hle i)⟩
  have := h x m hm (hx.trans (hle x))
  have := Finset.card_le_card hsub
  omega

end

/-- A round with at most `θ + 1` waiting members, in which an overdue member
is served if there is one, keeps the bound. -/
theorem Bounded.tick {A : Finset ι} {b : ι} (h : Bounded θ w) (hidle : ∀ i, i ∉ A → w i = 0)
    (hb : b ∈ A) (hcard : A.card ≤ θ + 1) (hsel : ∀ x ∈ A, θ ≤ w x → θ ≤ w b) :
    Bounded θ (tick A b w) := by
  intro x m hm hx
  obtain ⟨m, rfl⟩ : ∃ n, m = n + 1 := ⟨m - 1, by omega⟩
  have hxb : x ≠ b := by
    rintro rfl
    simp only [Aging.tick, if_pos] at hx; omega
  have hxA : x ∈ A := by
    by_contra hxA
    simp only [Aging.tick, if_neg hxb, if_neg hxA, hidle x hxA] at hx; omega
  have hwx : θ + m ≤ w x := by
    simp only [Aging.tick, if_neg hxb, if_pos hxA] at hx; omega
  -- the members over `m + 1` now are those over `m` before, without the served one
  have hlevel : level Finset.univ (Aging.tick A b w) (m + 1) = (level A w m).erase b := by
    ext i
    simp only [mem_level, Finset.mem_erase, Finset.mem_univ, true_and, Aging.tick]
    by_cases hi : i = b
    · simp [hi]
    · by_cases hiA : i ∈ A
      · simp [hi, hiA]
      · simp [hi, hiA, hidle i hiA]
  have hbm : b ∈ level A w m := mem_level.mpr ⟨hb, by
    have := hsel x hxA (by omega)
    have := h.excess_le hwx
    omega⟩
  have hA : (level A w m).card + m ≤ θ + 1 := by
    rcases Nat.eq_zero_or_pos m with rfl | hm'
    · exact (Finset.card_filter_le A _).trans hcard
    · refine le_trans (Nat.add_le_add_right (Finset.card_le_card fun i hi => ?_) m) (h x m hm' hwx)
      rw [mem_level] at hi ⊢
      exact ⟨Finset.mem_univ i, hi.2⟩
  have := Finset.card_pos.mpr ⟨b, hbm⟩
  rw [hlevel, Finset.card_erase_of_mem hbm]
  omega

end Aging
