import MiniOS.Compact
import MiniOS.Frames

/-!
# MiniOS.Compact.Spec

`compact_memory` looks the page above a hole up in `ref_count` under
`pfn_used`, its index in the reverse map.  That index belongs to a page below
`KERNBASE`, whose count is always 0, so no page is ever found movable and
`compact_memory` changes nothing.
-/

namespace MiniOS

open Extents

section
variable [KernelImage] {k : Kmem}

theorem movable_eq_false (hout : ∀ x, ¬ Managed (x * pgSize) → k.refCount x = 0) {used : Nat}
    (hused : used < physTop) : movable k used = false := by
  have hlow : ¬ Managed ((used - kernBase) / pgSize * pgSize) := fun hm => by
    have h1 := kernBase_le_of_managed hm
    have h2 := Nat.div_mul_le_self (used - kernBase) pgSize
    simp only [physTop, kernBase] at *
    omega
  simp [movable, hout _ hlow]

theorem compactLoop_idle (hout : ∀ x, ¬ Managed (x * pgSize) → k.refCount x = 0) (bs : List Block) :
    ∀ {curr fuel : Nat}, Seg k.mem curr bs 0 → bs.length < fuel → compactLoop fuel curr k = some ((), k) := by
  induction bs with
  | nil =>
    intro curr fuel hseg hfuel
    obtain ⟨fuel, rfl⟩ : ∃ f, fuel = f + 1 := ⟨fuel - 1, by simp only [List.length_nil] at hfuel; omega⟩
    have h0 : curr = 0 := hseg
    simp [compactLoop, h0]
  | cons b bs ih =>
    intro curr fuel hseg hfuel
    rw [List.length_cons] at hfuel
    obtain ⟨fuel, rfl⟩ : ∃ f, fuel = f + 1 := ⟨fuel - 1, by omega⟩
    obtain ⟨-, -, hseg⟩ := hseg
    have hnext := ih hseg (show bs.length < fuel by omega)
    simp only [compactLoop]
    by_cases h0 : curr = 0
    · rw [if_pos h0]
    · by_cases htop : physTop ≤ usedAbove k.mem curr
      · rw [if_neg h0, if_pos htop]
      · rw [if_neg h0, if_neg htop, movable_eq_false hout (Nat.lt_of_not_le htop), hnext]
        simp

/-- `compact_memory` changes nothing. -/
theorem Ok.compactMemory {roots held : Finset Nat} (h : Ok k roots held) :
    compactMemory k = some ((), k) := by
  obtain ⟨bs, kind, h⟩ := h
  have hlen := h.rep.length_lt
  have hfuel : listFuel ≤ compactFuel := Nat.le_mul_of_pos_left _ (by decide)
  rw [MiniOS.compactMemory]
  split
  next => rfl
  next => exact compactLoop_idle h.out bs h.rep.seg (by omega)

end

end MiniOS
