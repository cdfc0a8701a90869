import Mathlib.Algebra.Order.BigOperators.Group.Finset
import Mathlib.Algebra.BigOperators.Ring.Finset
import Mathlib.Data.Fintype.BigOperators

/-!
# MiniOS.Lib.Budget

A shared list of bounded length to which parties add distinct elements.  A
party is admitted with a quota of elements, and admission counts the elements
already in the list and a full quota for every party.  As long as no party
asks for more than its quota, a new element always finds room.
-/

namespace Budget

open Function

/-- The shared list, and what each admitted party has asked for so far. -/
structure Account (ι β : Type*) where
  shared : List β
  party : ι → Option (Finset β)

/-- What remains of a quota `q`. -/
def left {β : Type*} (q : ℕ) : Option (Finset β) → ℕ
  | none => 0
  | some asked => q - asked.card

@[simp] theorem left_none {β : Type*} (q : ℕ) : left q (none : Option (Finset β)) = 0 := rfl

@[simp] theorem left_some {β : Type*} (q : ℕ) (asked : Finset β) :
    left q (some asked) = q - asked.card := rfl

variable {ι β : Type*} [Fintype ι]

/-- Elements are listed once, nobody has asked for an element not listed, and
the list has room for what remains of every quota. -/
structure Within (q c : ℕ) (a : Account ι β) : Prop where
  nodup : a.shared.Nodup
  listed : ∀ i asked, a.party i = some asked → ∀ b ∈ asked, b ∈ a.shared
  room : a.shared.length + ∑ i, left q (a.party i) ≤ c

/-- The number of admitted parties. -/
def admitted (party : ι → Option (Finset β)) : ℕ := ∑ i, if (party i).isSome then 1 else 0

theorem left_le (q : ℕ) (o : Option (Finset β)) : left q o ≤ (if o.isSome then 1 else 0) * q := by
  cases o with
  | none => exact Nat.zero_le _
  | some asked => simp

theorem sum_left_le (q : ℕ) (party : ι → Option (Finset β)) :
    ∑ i, left q (party i) ≤ admitted party * q := by
  rw [admitted, Finset.sum_mul]
  exact Finset.sum_le_sum fun i _ => left_le q (party i)

theorem party_eq_none (party : ι → Option (Finset β)) (h : admitted party = 0) (i : ι) :
    party i = none := by
  have := (Finset.sum_eq_zero_iff.mp h) i (Finset.mem_univ i)
  cases hi : party i with
  | none => rfl
  | some asked => simp [hi] at this

variable [DecidableEq ι]

/-- A sum over all parties, when one of them changes. -/
theorem sum_update {γ : Type*} (f : γ → ℕ) (g : ι → γ) (i : ι) (x : γ) :
    ∑ j, f (update g i x j) + f (g i) = ∑ j, f (g j) + f x := by
  rw [← Finset.add_sum_erase _ _ (Finset.mem_univ i),
    ← Finset.add_sum_erase _ (fun j => f (g j)) (Finset.mem_univ i), update_self]
  have hrest : ∑ j ∈ Finset.univ.erase i, f (update g i x j) =
      ∑ j ∈ Finset.univ.erase i, f (g j) :=
    Finset.sum_congr rfl fun j hj => by rw [update_of_ne (Finset.ne_of_mem_erase hj)]
  omega

theorem admitted_none (party : ι → Option (Finset β)) {i : ι} {asked : Finset β}
    (h : party i = some asked) : admitted (update party i none) + 1 = admitted party := by
  have := sum_update (fun o : Option (Finset β) => if o.isSome then 1 else 0) party i none
  rw [h] at this
  exact this

theorem admitted_some (party : ι → Option (Finset β)) {i : ι} (asked : Finset β)
    (h : party i = none) : admitted (update party i (some asked)) = admitted party + 1 := by
  have := sum_update (fun o : Option (Finset β) => if o.isSome then 1 else 0) party i (some asked)
  rw [h] at this
  exact this

theorem admitted_again (party : ι → Option (Finset β)) {i : ι} {asked : Finset β} (asked' : Finset β)
    (h : party i = some asked) : admitted (update party i (some asked')) = admitted party := by
  have := sum_update (fun o : Option (Finset β) => if o.isSome then 1 else 0) party i (some asked')
  rw [h] at this
  exact Nat.add_right_cancel this

namespace Within

variable {q c : ℕ} {a : Account ι β}

variable {i : ι} {asked : Finset β} {b : β}

/-- Admission, if the list has room for a full quota of everybody. -/
theorem enter (h : Within q c a) (hi : a.party i = none)
    (hroom : a.shared.length + (admitted a.party + 1) * q ≤ c) :
    Within q c { a with party := update a.party i (some ∅) } where
  nodup := h.nodup
  listed j asked hj b hb := by
    by_cases hji : j = i
    · subst hji
      simp only [update_self, Option.some.injEq] at hj
      subst hj
      simp at hb
    · exact h.listed j asked (by simpa only [update_of_ne hji] using hj) b hb
  room := by
    have hsum := sum_update (left q) a.party i (some ∅)
    have hle := sum_left_le q a.party
    simp only [hi, left_none, left_some, Finset.card_empty] at hsum
    rw [Nat.add_mul] at hroom
    dsimp only
    omega

/-- A party leaves. -/
theorem leave (h : Within q c a) (i : ι) :
    Within q c { a with party := update a.party i none } where
  nodup := h.nodup
  listed j asked hj b hb := by
    by_cases hji : j = i
    · subst hji
      simp at hj
    · exact h.listed j asked (by simpa only [update_of_ne hji] using hj) b hb
  room := by
    have hsum := sum_update (left q) a.party i none
    have := h.room
    simp only [left_none] at hsum
    dsimp only
    omega

omit [DecidableEq ι] in
/-- The list is emptied when nobody is admitted. -/
theorem clear (h : Within q c a) (hnone : admitted a.party = 0) :
    Within q c { a with shared := [] } where
  nodup := List.nodup_nil
  listed i asked hi := by
    rw [party_eq_none a.party hnone i] at hi
    cases hi
  room := by
    have := h.room
    dsimp only [List.length_nil]
    omega

variable [DecidableEq β]

section
variable (h : Within q c a) (hi : a.party i = some asked)
include h hi

omit [DecidableEq ι] in
/-- A new element of an admitted party finds room. -/
theorem lt_of_new (hq : (insert b asked).card ≤ q) (hb : b ∉ a.shared) : a.shared.length < c := by
  have hnew : b ∉ asked := fun hm => hb (h.listed i asked hi b hm)
  have hle := Finset.single_le_sum (f := fun j => left q (a.party j)) (fun _ _ => Nat.zero_le _)
    (Finset.mem_univ i)
  rw [Finset.card_insert_of_notMem hnew] at hq
  simp only [hi, left_some] at hle
  have := h.room
  omega

theorem listed_insert {shared : List β}
    (hsub : ∀ x ∈ a.shared, x ∈ shared) (hb : b ∈ shared) :
    ∀ j asked', update a.party i (some (insert b asked)) j = some asked' →
      ∀ x ∈ asked', x ∈ shared := by
  intro j asked' hj x hx
  by_cases hji : j = i
  · subst hji
    simp only [update_self, Option.some.injEq] at hj
    subst hj
    rcases Finset.mem_insert.mp hx with rfl | hx
    · exact hb
    · exact hsub x (h.listed j asked hi x hx)
  · exact hsub x (h.listed j asked' (by simpa only [update_of_ne hji] using hj) x hx)

/-- A party asks for a listed element. -/
theorem absorb (hb : b ∈ a.shared) :
    Within q c { a with party := update a.party i (some (insert b asked)) } where
  nodup := h.nodup
  listed := h.listed_insert hi (fun _ hx => hx) hb
  room := by
    have hsum := sum_update (left q) a.party i (some (insert b asked))
    have hcard : asked.card ≤ (insert b asked).card := Finset.card_le_card (Finset.subset_insert b asked)
    have := h.room
    simp only [hi, left_some] at hsum
    dsimp only
    omega

/-- A party asks for a new element, which is added to the list. -/
theorem add (hq : (insert b asked).card ≤ q) (hb : b ∉ a.shared) :
    Within q c ⟨a.shared ++ [b], update a.party i (some (insert b asked))⟩ where
  nodup := List.nodup_append.mpr ⟨h.nodup, List.nodup_singleton b, by
    intro x hx y hy
    rintro rfl
    exact hb (List.mem_singleton.mp hy ▸ hx)⟩
  listed := h.listed_insert hi (fun x hx => List.mem_append_left _ hx) (by simp)
  room := by
    have hnew : b ∉ asked := fun hm => hb (h.listed i asked hi b hm)
    have hsum := sum_update (left q) a.party i (some (insert b asked))
    have := h.room
    rw [Finset.card_insert_of_notMem hnew] at hq
    simp only [hi, left_some, Finset.card_insert_of_notMem hnew] at hsum
    simp only [List.length_append, List.length_singleton]
    omega

end

end Within

end Budget
