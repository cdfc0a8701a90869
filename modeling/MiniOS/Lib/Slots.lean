import Mathlib.Data.Fintype.Basic
import Mathlib.Data.Finset.Image

/-!
# MiniOS.Lib.Slots

A table whose entries name resources.  The value 0 names nothing, and no two
entries name the same resource.  The lemmas follow the set of named resources
through updates of one entry.
-/

namespace MiniOS.Slots

open Function (update update_self update_of_ne update_idem)

variable {ι α : Type*} [Fintype ι] [DecidableEq ι] [DecidableEq α] [Zero α] {f : ι → α} {i : ι} {x : α}

/-- The resources that a table names. -/
def named (f : ι → α) : Finset α := (Finset.univ.image f).erase 0

/-- No two entries name the same resource. -/
def Distinct (f : ι → α) : Prop := ∀ i j, f i = f j → f i ≠ 0 → i = j

omit [DecidableEq ι] in
@[simp] theorem mem_named : x ∈ named f ↔ x ≠ 0 ∧ ∃ i, f i = x := by
  simp [named]

/-- An empty entry is filled. -/
theorem named_fill (h0 : f i = 0) (hx : x ≠ 0) : named (update f i x) = insert x (named f) := by
  ext y
  simp only [mem_named, Finset.mem_insert]
  constructor
  · rintro ⟨hy, j, rfl⟩
    by_cases hj : j = i
    · subst hj; simp
    · rw [update_of_ne hj] at hy ⊢
      exact Or.inr ⟨hy, j, rfl⟩
  · rintro (rfl | ⟨hy, j, rfl⟩)
    · exact ⟨hx, i, by simp⟩
    · refine ⟨hy, j, update_of_ne ?_ _ _⟩
      rintro rfl
      exact hy h0

/-- An entry is emptied. -/
theorem named_clear (h : Distinct f) : named (update f i 0) = (named f).erase (f i) := by
  ext y
  simp only [mem_named, Finset.mem_erase]
  constructor
  · rintro ⟨hy, j, rfl⟩
    have hj : j ≠ i := by rintro rfl; simp at hy
    rw [update_of_ne hj] at hy ⊢
    exact ⟨fun he => hj (h j i he hy), hy, j, rfl⟩
  · rintro ⟨hne, hy, j, rfl⟩
    exact ⟨hy, j, update_of_ne (by rintro rfl; exact hne rfl) _ _⟩

/-- An entry changes to another resource. -/
theorem named_replace (h : Distinct f) (hx : x ≠ 0) :
    named (update f i x) = insert x ((named f).erase (f i)) := by
  rw [← named_clear h, ← named_fill (i := i) (by simp) hx, update_idem]

/-- An entry changes to a resource that no entry names. -/
theorem Distinct.replace (h : Distinct f) (hx : x ∉ named f) : Distinct (update f i x) := by
  have hfresh : ∀ j, x ≠ 0 → f j ≠ x := fun j h0 he => hx (mem_named.mpr ⟨h0, j, he⟩)
  intro j k he hne
  by_cases hj : j = i <;> by_cases hk : k = i
  · rw [hj, hk]
  · subst hj
    rw [update_self] at he hne
    rw [update_of_ne hk] at he
    exact absurd he.symm (hfresh k hne)
  · subst hk
    rw [he, update_self] at hne
    rw [update_of_ne hj, update_self] at he
    exact absurd he (hfresh j hne)
  · rw [update_of_ne hj] at he hne
    rw [update_of_ne hk] at he
    exact h j k he hne

end MiniOS.Slots
