import Mathlib.Logic.Function.Basic
import Mathlib.Data.List.Nodup

/-!
# MiniOS.Lib.Owners

Exact ownership of numbered cells.  A set of places each refers to at most
one cell (`f x = 0` for none) and a bitmap says which cells are in use.
`Exact lo hi f used loose` says that the cells from `lo` up to `hi` that are in
use are those that exactly one place refers to, and those of the list `loose`,
which have been allocated and not yet referred to, or are about to be freed.
Cells below `lo` are always in use.
-/

namespace Owners

open Function (update update_self update_of_ne)

variable {X : Type*}

structure Exact (lo hi : Nat) (f : X → Nat) (used : Nat → Bool) (loose : List Nat) : Prop where
  pos : 0 < lo
  below : ∀ b, b < lo → used b = true
  inj : ∀ x y, f x ≠ 0 → f x = f y → x = y
  named : ∀ x, f x ≠ 0 → lo ≤ f x ∧ f x < hi ∧ used (f x) = true ∧ f x ∉ loose
  nodup : loose.Nodup
  alloc : ∀ b ∈ loose, lo ≤ b ∧ b < hi ∧ used b = true
  owned : ∀ b, lo ≤ b → b < hi → used b = true → b ∈ loose ∨ ∃ x, f x = b

variable {lo hi : Nat} {f f' : X → Nat} {used : Nat → Bool} {loose : List Nat} {b : Nat}

namespace Exact

theorem congr (h : Exact lo hi f used loose) (hf : ∀ x, f' x = f x) : Exact lo hi f' used loose := by
  obtain rfl : f' = f := funext hf
  exact h

/-- A cell that is not in use is allocated. -/
theorem take (h : Exact lo hi f used loose) (hb : used b = false) (hhi : b < hi) :
    Exact lo hi f (update used b true) (b :: loose) := by
  have hlo : lo ≤ b := by
    by_contra hc
    rw [h.below b (Nat.lt_of_not_le hc)] at hb
    cases hb
  have hused : ∀ c, used c = true → update used b true c = true := fun c hc => by
    by_cases hcb : c = b
    · rw [hcb, update_self]
    · rw [update_of_ne hcb, hc]
  refine ⟨h.pos, fun c hc => hused c (h.below c hc), h.inj, fun x hx => ?_, ?_, fun c hc => ?_, fun c hl hh hc => ?_⟩
  · obtain ⟨h1, h2, h3, h4⟩ := h.named x hx
    refine ⟨h1, h2, hused _ h3, ?_⟩
    rw [List.mem_cons, not_or]
    refine ⟨fun e => ?_, h4⟩
    rw [e, hb] at h3
    cases h3
  · refine List.nodup_cons.mpr ⟨fun hm => ?_, h.nodup⟩
    rw [(h.alloc b hm).2.2] at hb
    cases hb
  · rcases List.mem_cons.mp hc with rfl | hc
    · exact ⟨hlo, hhi, update_self ..⟩
    · obtain ⟨h1, h2, h3⟩ := h.alloc c hc
      exact ⟨h1, h2, hused c h3⟩
  · by_cases hcb : c = b
    · exact .inl (by simp [hcb])
    · rw [update_of_ne hcb] at hc
      rcases h.owned c hl hh hc with hm | hx
      · exact .inl (by simp [hm])
      · exact .inr hx

/-- A place takes over an allocated cell. -/
theorem attach [DecidableEq X] (h : Exact lo hi f used (b :: loose)) {x : X} (hx : f x = 0)
    (hf : ∀ y, f' y = if y = x then b else f y) : Exact lo hi f' used loose := by
  obtain ⟨hbl, hnd⟩ := List.nodup_cons.mp h.nodup
  have hold : ∀ y, y ≠ x → f' y = f y := fun y hy => by rw [hf, if_neg hy]
  have hnew : f' x = b := by rw [hf, if_pos rfl]
  have hneb : ∀ y, f y ≠ 0 → f y ≠ b := fun y hy e => (h.named y hy).2.2.2 (by simp [e])
  refine ⟨h.pos, h.below, fun y z hy hyz => ?_, fun y hy => ?_, hnd, fun c hc => h.alloc c (by simp [hc]),
    fun c hl hh hc => ?_⟩
  · by_cases hyx : y = x <;> by_cases hzx : z = x
    · rw [hyx, hzx]
    · rw [hyx, hnew, hold z hzx] at hyz
      rw [hyx, hnew, hyz] at hy
      exact absurd hyz.symm (hneb z hy)
    · rw [hold y hyx] at hy hyz
      rw [hzx, hnew] at hyz
      exact absurd hyz (hneb y hy)
    · rw [hold y hyx] at hy hyz
      rw [hold z hzx] at hyz
      exact h.inj y z hy hyz
  · by_cases hyx : y = x
    · rw [hyx, hnew]
      obtain ⟨h1, h2, h3⟩ := h.alloc b (by simp)
      exact ⟨h1, h2, h3, hbl⟩
    · rw [hold y hyx] at hy ⊢
      obtain ⟨h1, h2, h3, h4⟩ := h.named y hy
      exact ⟨h1, h2, h3, fun hm => h4 (by simp [hm])⟩
  · rcases h.owned c hl hh hc with hm | ⟨y, hy⟩
    · rcases List.mem_cons.mp hm with rfl | hm
      · exact .inr ⟨x, hnew⟩
      · exact .inl hm
    · by_cases hyx : y = x
      · have := h.pos
        rw [hyx, hx] at hy
        omega
      · exact .inr ⟨y, by rw [hold y hyx, hy]⟩

/-- The places `xs` give their cells up. -/
theorem detach [DecidableEq X] (h : Exact lo hi f used loose) {xs : List X} (hxs : xs.Nodup)
    (hf : ∀ y, f' y = if y ∈ xs then 0 else f y) :
    Exact lo hi f' used ((xs.map f).filter (· ≠ 0) ++ loose) := by
  have hsub : ∀ y, f' y ≠ 0 → y ∉ xs ∧ f' y = f y := fun y hy => by
    rw [hf] at hy ⊢
    split at hy
    · exact absurd rfl hy
    · next hm => exact ⟨hm, if_neg hm⟩
  have hgone : ∀ c, c ∈ (xs.map f).filter (· ≠ 0) ↔ ∃ x ∈ xs, f x = c ∧ c ≠ 0 := fun c => by
    simp only [List.mem_filter, List.mem_map, decide_eq_true_eq]
    exact ⟨fun ⟨⟨x, hx, he⟩, h0⟩ => ⟨x, hx, he, h0⟩, fun ⟨x, hx, he, h0⟩ => ⟨⟨x, hx, he⟩, h0⟩⟩
  refine ⟨h.pos, h.below, fun y z hy hyz => ?_, fun y hy => ?_, ?_, fun c hc => ?_, fun c hl hh hc => ?_⟩
  · obtain ⟨-, ey⟩ := hsub y hy
    obtain ⟨-, ez⟩ := hsub z (hyz ▸ hy)
    exact h.inj y z (ey ▸ hy) (by rw [← ey, hyz, ez])
  · obtain ⟨hyx, ey⟩ := hsub y hy
    rw [ey] at hy ⊢
    obtain ⟨h1, h2, h3, h4⟩ := h.named y hy
    refine ⟨h1, h2, h3, ?_⟩
    rw [List.mem_append, not_or, hgone]
    refine ⟨fun ⟨x, hx, he, h0⟩ => hyx (h.inj x y (he ▸ h0) he ▸ hx), h4⟩
  · refine List.Nodup.append ?_ h.nodup fun c hc hl => ?_
    · rw [List.filter_map]
      refine (hxs.filter _).map_on fun x hx y hy hxy => ?_
      have hx0 : f x ≠ 0 := by simpa using (List.mem_filter.mp hx).2
      exact h.inj x y hx0 hxy
    · obtain ⟨x, -, he, h0⟩ := (hgone c).mp hc
      exact (h.named x (he ▸ h0)).2.2.2 (he ▸ hl)
  · rcases List.mem_append.mp hc with hc | hc
    · obtain ⟨x, -, rfl, h0⟩ := (hgone c).mp hc
      obtain ⟨h1, h2, h3, -⟩ := h.named x h0
      exact ⟨h1, h2, h3⟩
    · exact h.alloc c hc
  · rcases h.owned c hl hh hc with hm | ⟨x, rfl⟩
    · exact .inl (List.mem_append_right _ hm)
    · by_cases hx : x ∈ xs
      · have h0 : f x ≠ 0 := fun e => by
          have := h.pos
          omega
        exact .inl (List.mem_append_left _ ((hgone _).mpr ⟨x, hx, rfl, h0⟩))
      · exact .inr ⟨x, by rw [hf, if_neg hx]⟩

/-- An allocated cell without an owner is freed. -/
theorem free (h : Exact lo hi f used (b :: loose)) :
    Exact lo hi f (update used b false) loose := by
  obtain ⟨hbl, hnd⟩ := List.nodup_cons.mp h.nodup
  have hlo := (h.alloc b (by simp)).1
  have hused : ∀ c, c ≠ b → update used b false c = used c := fun c hc =>
    update_of_ne hc _ _
  refine ⟨h.pos, fun c hc => ?_, h.inj, fun x hx => ?_, hnd, fun c hc => ?_, fun c hl hh hc => ?_⟩
  · rw [hused c (by omega), h.below c hc]
  · obtain ⟨h1, h2, h3, h4⟩ := h.named x hx
    rw [List.mem_cons, not_or] at h4
    exact ⟨h1, h2, by rw [hused _ h4.1, h3], h4.2⟩
  · obtain ⟨h1, h2, h3⟩ := h.alloc c (by simp [hc])
    have hcb : c ≠ b := fun e => hbl (e ▸ hc)
    exact ⟨h1, h2, by rw [hused c hcb, h3]⟩
  · have hcb : c ≠ b := by
      rintro rfl
      rw [update_self] at hc
      cases hc
    rw [hused c hcb] at hc
    rcases h.owned c hl hh hc with hm | hx
    · exact .inl ((List.mem_cons.mp hm).resolve_left hcb)
    · exact .inr hx

/-- With nothing loose, a cell is in use exactly when exactly one place refers to it. -/
theorem used_iff (h : Exact lo hi f used []) (hl : lo ≤ b) (hh : b < hi) :
    used b = true ↔ ∃! x, f x = b := by
  constructor
  · intro hb
    rcases h.owned b hl hh hb with hm | ⟨x, rfl⟩
    · cases hm
    · have h0 : f x ≠ 0 := by
        have := h.pos
        omega
      exact ⟨x, rfl, fun y hy => h.inj y x (hy ▸ h0) hy⟩
  · rintro ⟨x, rfl, -⟩
    have h0 : f x ≠ 0 := by
      have := h.pos
      omega
    exact (h.named x h0).2.2.1

end Exact

end Owners
