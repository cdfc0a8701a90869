import Mathlib.Logic.Function.Basic
import Mathlib.Data.Option.Basic

/-!
# MiniOS.Lib.SlotMap

A table of slots as a finite map.  A slot is empty or holds a key with a
value; the table represents the map `M` if its keys are distinct and `M` gives
for each of them the value it has in its slot.
-/

namespace SlotMap

open Function (update update_self update_of_ne)

variable {ι K V : Type*}

/-- The slots `f` hold the map `M`, each key in one slot. -/
structure Represents (f : ι → Option (K × V)) (M : K → Option V) : Prop where
  distinct : ∀ i j k v w, f i = some (k, v) → f j = some (k, w) → i = j
  iff : ∀ k v, M k = some v ↔ ∃ i, f i = some (k, v)

variable {f : ι → Option (K × V)} {M : K → Option V} {i j : ι} {k : K} {v : V}

namespace Represents

theorem of_slot (h : Represents f M) (hi : f i = some (k, v)) : M k = some v := (h.iff k v).mpr ⟨i, hi⟩

theorem ne_of_none (h : Represents f M) (hk : M k = none) : f i ≠ some (k, v) := fun hi => by
  rw [h.of_slot hi] at hk
  cases hk

variable [DecidableEq ι] [DecidableEq K]

/-- A new key goes to an empty slot. -/
theorem insert (h : Represents f M) (hk : M k = none) (hi : f i = none) :
    Represents (update f i (some (k, v))) (update M k (some v)) := by
  constructor
  · intro a b k' w w' ha hb
    by_cases hai : a = i <;> by_cases hbi : b = i
    · rw [hai, hbi]
    · subst hai
      rw [update_self] at ha
      rw [update_of_ne hbi] at hb
      cases ha
      exact absurd hb (h.ne_of_none hk)
    · subst hbi
      rw [update_self] at hb
      rw [update_of_ne hai] at ha
      cases hb
      exact absurd ha (h.ne_of_none hk)
    · rw [update_of_ne hai] at ha
      rw [update_of_ne hbi] at hb
      exact h.distinct a b k' w w' ha hb
  · intro k' w
    by_cases hkk : k' = k
    · subst hkk
      rw [update_self]
      constructor
      · rintro ⟨⟩
        exact ⟨i, update_self ..⟩
      · rintro ⟨a, ha⟩
        by_cases hai : a = i
        · subst hai
          rw [update_self] at ha
          cases ha
          rfl
        · rw [update_of_ne hai] at ha
          exact absurd ha (h.ne_of_none hk)
    · rw [update_of_ne hkk, h.iff]
      refine exists_congr fun a => ?_
      by_cases hai : a = i
      · subst hai
        rw [update_self, hi]
        simp only [reduceCtorEq, Option.some.injEq, Prod.mk.injEq, false_iff, not_and]
        exact fun he => absurd he.symm hkk
      · rw [update_of_ne hai]

/-- The slot of a key is emptied. -/
theorem erase (h : Represents f M) (hi : f i = some (k, v)) :
    Represents (update f i none) (update M k none) := by
  have hsub : ∀ {a e}, update f i none a = some e → a ≠ i ∧ f a = some e := fun {a e} ha => by
    by_cases hai : a = i
    · subst hai
      rw [update_self] at ha
      cases ha
    · rw [update_of_ne hai] at ha
      exact ⟨hai, ha⟩
  constructor
  · exact fun a b k' w w' ha hb => h.distinct a b k' w w' (hsub ha).2 (hsub hb).2
  · intro k' w
    by_cases hkk : k' = k
    · subst hkk
      rw [update_self]
      refine ⟨nofun, fun ⟨a, ha⟩ => ?_⟩
      exact absurd (h.distinct a i k' w v (hsub ha).2 hi) (hsub ha).1
    · rw [update_of_ne hkk, h.iff]
      refine ⟨fun ⟨a, ha⟩ => ⟨a, ?_⟩, fun ⟨a, ha⟩ => ⟨a, (hsub ha).2⟩⟩
      rw [update_of_ne]
      · exact ha
      · rintro rfl
        rw [hi] at ha
        cases ha
        exact hkk rfl

end Represents

/-- Slots with other keys than `k` are the same in both tables. -/
def SameOthers (k : K) (f f' : ι → Option (K × V)) : Prop :=
  ∀ i k' v, k' ≠ k → (f' i = some (k', v) ↔ f i = some (k', v))

variable [DecidableEq ι]

theorem sameOthers_insert (hi : f i = none) : SameOthers k f (update f i (some (k, v))) := by
  intro a k' w hk
  by_cases hai : a = i
  · subst hai
    rw [update_self, hi]
    simp only [Option.some.injEq, Prod.mk.injEq, reduceCtorEq, iff_false, not_and]
    exact fun he => absurd he.symm hk
  · rw [update_of_ne hai]

theorem sameOthers_erase (hi : f i = some (k, v)) : SameOthers k f (update f i none) := by
  intro a k' w hk
  by_cases hai : a = i
  · subst hai
    rw [update_self, hi]
    simp only [Option.some.injEq, Prod.mk.injEq, reduceCtorEq, false_iff, not_and]
    exact fun he => absurd he.symm hk
  · rw [update_of_ne hai]

end SlotMap
