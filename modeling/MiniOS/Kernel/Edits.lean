import MiniOS.Kernel.Tables

/-!
# MiniOS.Kernel.Edits

The sequences of edits that the functions of `vm.c` make, and what they leave:
which pages they concern, the entries afterwards, and what is seen.
-/

namespace MiniOS

section
variable [KernelImage] {V V' : View} {r : Nat}

/-! ## mapping -/

variable {e : Edit} {r lo n old : Nat}

omit [KernelImage] in
theorem mem_maps {perm : Word} : ∀ {pas : List Nat} {lo : Nat}, e ∈ maps r perm lo pas →
    ∃ v pa, lo ≤ v ∧ v < lo + pas.length ∧ e = .map r v (pa2pte pa ||| perm ||| pteV)
  | [], _, he => absurd he List.not_mem_nil
  | pa :: pas, lo, he => by
      rcases List.mem_cons.mp he with rfl | he
      · exact ⟨lo, pa, Nat.le_refl lo, by simp, rfl⟩
      · obtain ⟨v, q, h1, h2, rfl⟩ := mem_maps he
        exact ⟨v, q, by omega, by simp only [List.length_cons]; omega, rfl⟩

theorem Edits.maps_pte {perm : Word} : ∀ {pas : List Nat} {lo : Nat} {V V' : View},
    Edits V (maps r perm lo pas) V' → ∀ r' v, V'.pte r' v =
      if r' = r ∧ lo ≤ v ∧ v < lo + pas.length then pa2pte (pas.getD (v - lo) 0) ||| perm ||| pteV
      else V.pte r' v
  | [], lo, V, V', h, r', v => by
      rw [Edits.nil_iff.mp h, if_neg (by simp only [List.length_nil]; omega)]
  | pa :: pas, lo, V, V', h, r', v => by
      obtain ⟨-, h⟩ := Edits.cons_iff.mp h
      rw [h.maps_pte, View.edit_pte_some rfl]
      by_cases hr : r' = r
      · by_cases hv : v = lo
        · simp [hr, hv]
        · by_cases hin : lo ≤ v ∧ v < lo + (pas.length + 1)
          · obtain ⟨i, rfl⟩ : ∃ i, v = lo + 1 + i := ⟨v - (lo + 1), by omega⟩
            rw [if_pos ⟨hr, by omega, by omega⟩, if_pos ⟨hr, by omega, by simp only [List.length_cons]; omega⟩]
            simp [show lo + 1 + i - (lo + 1) = i by omega, show lo + 1 + i - lo = i + 1 by omega]
          · rw [if_neg (by omega), if_neg (by omega), if_neg (by simp only [List.length_cons]; omega)]
      · simp [hr]

/-- Pages are mapped where nothing is mapped. -/
theorem Edits.maps_free {perm : Word} : ∀ {pas : List Nat} {lo : Nat} {V V' : View},
    Edits V (maps r perm lo pas) V' → ∀ v, lo ≤ v → v < lo + pas.length → v < userVpn ∧ V.pte r v = 0
  | [], lo, _, _, _, v, hlo, hhi => by
      simp only [List.length_nil] at hhi
      omega
  | _ :: pas, lo, V, _, h, v, hlo, hhi => by
      obtain ⟨hl, h⟩ := Edits.cons_iff.mp h
      rw [List.length_cons] at hhi
      by_cases hv : v = lo
      · subst hv
        exact ⟨hl.1, hl.2.1⟩
      · obtain ⟨huser, h0⟩ := h.maps_free v (by omega) (by omega)
        rw [View.edit_pte_some rfl, if_neg fun hc => hv hc.2] at h0
        exact ⟨huser, h0⟩

/-! ## what is seen -/

/-- An edit that changes no byte. -/
def Edit.Quiet : Edit → Prop
  | .share .. | .unmap .. | .write .. => False
  | _ => True

theorem Edits.sees_quiet {v : Nat} (hv : v < userVpn) {es : List Edit} {V V' : View} (h : Edits V es V')
    (hc : V.Clean) (hq : ∀ e ∈ es, e.Quiet) : V'.sees r v = V.sees r v :=
  h.sees_eq hv hc fun e he _ => by
    have := hq e he
    cases e <;> first | rfl | exact this.elim

theorem Edits.unmaps_sees : ∀ {n lo : Nat} {V V' : View}, Edits V (unmaps r lo n) V' → V.Clean →
    ∀ r' v, v < userVpn → V'.sees r' v =
      if r' = r ∧ lo ≤ v ∧ v < lo + n then zeroPage else V.sees r' v
  | 0, lo, V, V', h, _, r', v, _ => by
      rw [Edits.nil_iff.mp h, if_neg (by omega)]
  | n + 1, lo, V, V', h, hc, r', v, hv => by
      rw [unmaps_succ] at h
      obtain ⟨hl, h⟩ := Edits.cons_iff.mp h
      rw [h.unmaps_sees (hc.edit hl) r' v hv, View.edit_sees hc hl hv, Edit.sees]
      by_cases he : r' = r ∧ v = lo
      · obtain ⟨rfl, rfl⟩ := he
        rw [if_neg (by omega), if_pos ⟨rfl, rfl⟩, if_pos ⟨rfl, Nat.le_refl v, by omega⟩]
      · rw [if_neg he]
        exact if_congr (by omega) rfl rfl

/-! ## unmapping -/

/-- No entry is left where pages are unmapped. -/
theorem Edits.unmaps_zero {v : Nat} (h : Edits V (unmaps r lo n) V') (hc : V.Clean) (hlo : lo ≤ v)
    (hhi : v < lo + n) : V'.pte r v = 0 := by
  rw [h.unmaps_pte]
  split
  next => rfl
  next hne =>
    refine (hc r v ?_).1
    by_contra hV
    exact hne ⟨⟨rfl, hlo, hhi⟩, by simpa using hV⟩

section
omit [KernelImage]

theorem mem_unmaps (he : e ∈ unmaps r lo n) :
    ∃ v, lo ≤ v ∧ v < lo + n ∧ e = .unmap r v := by
  obtain ⟨v, hv, rfl⟩ := List.mem_map.mp he
  obtain ⟨h1, h2⟩ := List.mem_range'_1.mp hv
  exact ⟨v, h1, h2, rfl⟩

theorem place_unmaps (he : e ∈ unmaps r lo n) :
    e.place.1 = r ∧ lo ≤ e.place.2 ∧ e.place.2 < lo + n := by
  obtain ⟨v, h1, h2, rfl⟩ := mem_unmaps he
  exact ⟨rfl, h1, h2⟩

theorem place_freed {sz : Nat} (he : e ∈ freed r sz) : e.place.1 = r := by
  rcases List.mem_append.mp he with he | he
  · rw [List.mem_singleton.mp he]; rfl
  · rcases List.mem_append.mp he with he | he
    · rw [List.mem_singleton.mp he]; rfl
    · exact (place_unmaps he).1

end

/-- The mappings of a new page table. -/
def kernelMaps (r trapframe : Nat) : List Edit :=
  [.kmap r (userVpn + 1) trampolinePte, .kmap r userVpn (trapframePte trapframe)]

theorem place_kernelMaps {tf : Nat} (he : e ∈ kernelMaps r tf) :
    e.place.1 = r ∧ userVpn ≤ e.place.2 := by
  simp only [kernelMaps, List.mem_cons, List.not_mem_nil, or_false] at he
  rcases he with rfl | rfl
  · exact ⟨rfl, Nat.le_succ _⟩
  · exact ⟨rfl, Nat.le_refl _⟩

/-- The entries of a new page table. -/
theorem Edits.kernelMaps_pte {tf : Nat} (h : Edits V (kernelMaps r tf) V')
    (h0 : ∀ v, V.pte r v = 0) (v : Nat) : V'.pte r v =
      if v = userVpn then trapframePte tf else if v = userVpn + 1 then trampolinePte else 0 := by
  obtain ⟨-, h⟩ := Edits.cons_iff.mp h
  obtain ⟨-, h⟩ := Edits.cons_iff.mp h
  rw [Edits.nil_iff.mp h, View.edit_pte_some rfl, View.edit_pte_some rfl, h0]
  simp

/-! ## copying -/

omit [KernelImage] in
theorem mem_copies {new : Nat} (he : e ∈ copies old new lo n) :
    ∃ v, lo ≤ v ∧ v < lo + n ∧ (e = .cow old v ∨ e = .share old new v) := by
  obtain ⟨v, hv, he⟩ := List.mem_flatMap.mp he
  obtain ⟨h1, h2⟩ := List.mem_range'_1.mp hv
  simp only [List.mem_cons, List.not_mem_nil, or_false] at he
  exact ⟨v, h1, h2, he⟩

/-- What `uvmcopy` does when it runs out of memory at page `m`. -/
def copyUndone (old new m : Nat) : List Edit := copies old new 0 m ++ ([.cow old m] ++ unmaps new 0 m)

omit [KernelImage] in
theorem mem_copyUndone {new m : Nat} (he : e ∈ copyUndone old new m) :
    (∃ v ≤ m, e = .cow old v) ∨ (e.place.1 = new ∧ e.place.2 < m) := by
  rcases List.mem_append.mp he with he | he
  · obtain ⟨v, -, hv, rfl | rfl⟩ := mem_copies he
    · exact Or.inl ⟨v, by omega, rfl⟩
    · rw [Nat.zero_add] at hv
      exact Or.inr ⟨rfl, hv⟩
  · rcases List.mem_append.mp he with he | he
    · exact Or.inl ⟨m, Nat.le_refl m, List.mem_singleton.mp he⟩
    · obtain ⟨h1, -, h2⟩ := place_unmaps he
      exact Or.inr ⟨h1, by omega⟩

/-- The new page table is as empty as before. -/
theorem Edits.copyUndone_pte {new m v : Nat} (h : Edits V (copyUndone old new m) V')
    (hc : V.Clean) (hne : old ≠ new) (h0 : V.pte new v = 0) : V'.pte new v = 0 := by
  obtain ⟨V₁, h₁, h⟩ := h.split
  obtain ⟨V₂, h₂, h⟩ := h.split
  rw [Edits.unmaps_pte h]
  split
  next => rfl
  next hv =>
    by_cases hlt : v < m
    · have hV : has (V₂.pte new v) pteV = false := by
        by_contra hV
        exact hv ⟨⟨rfl, Nat.zero_le v, by omega⟩, by simpa using hV⟩
      exact (h₂.clean (h₁.clean hc) new v hV).1
    · rw [h₂.pte_of_ne (by simp [Edit.place, hne]), h₁.pte_of_ne fun e he => ?_, h0]
      obtain ⟨w, -, hw, rfl | rfl⟩ := mem_copies he
      · simp [Edit.place, hne]
      · simp only [Edit.place, ne_eq, Prod.mk.injEq, true_and]
        omega

omit [KernelImage] in
theorem aside_copyUndone {m : Nat} (he : e ∈ copyUndone old r m) : e.Aside r := by
  rcases mem_copyUndone he with ⟨w, -, rfl⟩ | ⟨hw, -⟩
  · exact Or.inr ⟨_, w, rfl⟩
  · exact Or.inl hw

end

end MiniOS
