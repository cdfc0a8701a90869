import Mathlib.Algebra.GroupWithZero.Nat
import Mathlib.Logic.Function.Basic
import Mathlib.Data.List.Basic

/-!
# MiniOS.Lib.Ring

A circular buffer of `N` cells under counters that only grow.  `Holds N cells
hist r` says that of the sequence `hist` of everything written, the part from
`r` on is in the cells, item `j` in cell `j % N`.  Counters that are 32-bit
words wrap; they still tell how many items there are.
-/

namespace Ring

variable {α : Type*} {N r r' m : Nat} {cells : Nat → α} {hist : List α} {c : α}

structure Holds (N : Nat) (cells : Nat → α) (hist : List α) (r : Nat) : Prop where
  le : r ≤ hist.length
  fits : hist.length ≤ r + N
  cell : ∀ j, r ≤ j → j < hist.length → hist[j]? = some (cells (j % N))

theorem mod_ne {j l : Nat} (hj : j < l) (hl : l < j + N) : j % N ≠ l % N := fun h => by
  have hdvd : N ∣ l - j := Nat.dvd_of_mod_eq_zero (Nat.sub_mod_eq_zero_of_mod_eq h.symm)
  have := Nat.le_of_dvd (by omega) hdvd
  omega

/-- Nothing has been written. -/
theorem holds_nil (cells : Nat → α) : Holds N cells [] 0 :=
  ⟨Nat.le_refl _, Nat.zero_le _, fun _ _ hj => absurd hj (Nat.not_lt_zero _)⟩

namespace Holds

/-- Items are given up from the front. -/
theorem advance (h : Holds N cells hist r) (hr : r ≤ r') (hle : r' ≤ hist.length) :
    Holds N cells hist r' :=
  ⟨hle, by have := h.fits; omega, fun j hj => h.cell j (by omega)⟩

/-- The cell after the last item is written. -/
theorem stage (h : Holds N cells hist r) (hfits : hist.length < r + N) :
    Holds N (Function.update cells (hist.length % N) c) hist r := by
  refine ⟨h.le, h.fits, fun j hj hlt => ?_⟩
  have hne := mod_ne hlt (show hist.length < j + N by omega)
  rw [h.cell j hj hlt, Function.update_of_ne hne]

/-- What is in the cell after the last item becomes an item. -/
theorem commit (h : Holds N cells hist r) (hfits : hist.length < r + N) (hc : cells (hist.length % N) = c) :
    Holds N cells (hist ++ [c]) r := by
  have hle := h.le
  refine ⟨by simp; omega, by simp; omega, fun j hj hlt => ?_⟩
  rw [List.length_append, List.length_singleton] at hlt
  rcases Nat.lt_succ_iff_lt_or_eq.mp hlt with hlt | rfl
  · rw [List.getElem?_append_left hlt, h.cell j hj hlt]
  · rw [List.getElem?_concat_length, hc]

/-- The last item is given up. -/
theorem retract (h : Holds N cells (hist ++ [c]) r) (hr : r ≤ hist.length) :
    Holds N cells hist r ∧ cells (hist.length % N) = c := by
  have hlen : (hist ++ [c]).length = hist.length + 1 := List.length_append
  refine ⟨⟨hr, by have := h.fits; omega, fun j hj hlt => ?_⟩, ?_⟩
  · rw [← h.cell j hj (by omega), List.getElem?_append_left hlt]
  · have hc := h.cell hist.length hr (by omega)
    rw [List.getElem?_concat_length, Option.some_inj] at hc
    exact hc.symm

/-- An item is written; where the buffer was full, one is given up. -/
theorem push (h : Holds N cells hist r) (hr : r ≤ r') (hle : r' ≤ hist.length + 1)
    (hfits : hist.length + 1 ≤ r' + N) :
    Holds N (Function.update cells (hist.length % N) c) (hist ++ [c]) r' := by
  rcases Nat.lt_or_ge hist.length r' with hlt | hge
  · -- all items but the new one are given up
    obtain rfl : r' = hist.length + 1 := by omega
    exact ⟨by simp, by simp, fun j hj hlt => absurd hlt (by simp; omega)⟩
  · have h' := h.advance hr hge
    exact (h'.stage hfits).commit hfits (Function.update_self ..)

/-- The first item that is held. -/
theorem head (h : Holds N cells hist r) (hlt : r < hist.length) :
    hist.drop r = cells (r % N) :: hist.drop (r + 1) := by
  have hc := h.cell r (Nat.le_refl _) hlt
  rw [List.getElem?_eq_getElem hlt, Option.some_inj] at hc
  rw [List.drop_eq_getElem_cons hlt, hc]

end Holds

/-! ## Counters modulo `2 ^ 32` -/

theorem toNat_ofNat_mod (hN : N ∣ 2 ^ 32) (n : Nat) : (BitVec.ofNat 32 n).toNat % N = n % N := by
  rw [BitVec.toNat_ofNat]
  exact Nat.mod_mod_of_dvd n hN

theorem toNat_sub_ofNat {m n : Nat} (hle : m ≤ n) (hlt : n < m + 2 ^ 32) :
    (BitVec.ofNat 32 n - BitVec.ofNat 32 m).toNat = n - m := by
  rw [BitVec.toNat_sub, BitVec.toNat_ofNat, BitVec.toNat_ofNat]
  omega

/-- Two counters that differ by less than `2 ^ 32` are equal if they are as words. -/
theorem ofNat_inj {m n : Nat} (hle : m ≤ n) (hlt : n < m + 2 ^ 32) :
    BitVec.ofNat 32 n = BitVec.ofNat 32 m ↔ n = m := by
  refine ⟨fun h => ?_, fun h => h ▸ rfl⟩
  have := congrArg BitVec.toNat h
  simp only [BitVec.toNat_ofNat] at this
  omega

end Ring
