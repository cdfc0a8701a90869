import MiniOS.View

/-!
# MiniOS.Cow

What the kernel's edits do to the bytes that processes see.

Copy-on-write rests on one invariant: a page that some entry lets its process
write is used by that entry alone (`View.Excl`).  Under it every edit except
an explicit write, an unmapping and the sharing of a page leaves all bytes as
they are (`View.edit_sees`).
-/

namespace MiniOS

namespace View

/-! ## invalid entries -/

/-- An invalid entry is 0 and nothing is seen through it. -/
def Clean (V : View) : Prop :=
  ∀ r v, has (V.pte r v) pteV = false → V.pte r v = 0 ∧ V.sees r v = zeroPage

/-- A writable page has one user. -/
def Excl (V : View) : Prop :=
  ∀ r v, v < userVpn → has (V.pte r v) pteV → has (V.pte r v) pteW → V.Sole r v (pte2pa (V.pte r v))

variable {V V' : View}

theorem uses_congr (h : V'.pte = V.pte) (r v q : Nat) : V'.Uses r v q ↔ V.Uses r v q := by
  rw [Uses, Uses, h]

theorem Excl.congr (h : V.Excl) (hpte : V'.pte = V.pte) : V'.Excl := fun r v hv hV hW r' v' hu => by
  rw [hpte] at hV hW hu
  exact h r v hv hV hW r' v' ((uses_congr hpte r' v' _).mp hu)

/-- Writing one entry keeps writable pages exclusive if the page it points to
has no other user, or no user that may write. -/
theorem Excl.update (h : V.Excl) {r v : Nat} {w : Word}
    (hpte : ∀ r' v', V'.pte r' v' = if r' = r ∧ v' = v then w else V.pte r' v')
    (hw : v < userVpn → has w pteV → ∀ r' v', ¬ (r' = r ∧ v' = v) → V.Uses r' v' (pte2pa w) →
      has w pteW = false ∧ has (V.pte r' v') pteW = false) : V'.Excl := by
  have huses : ∀ {r' v' q}, V'.Uses r' v' q → ¬ (r' = r ∧ v' = v) → V.Uses r' v' q := by
    rintro r' v' q ⟨hv', hh⟩ hne
    rw [hpte, if_neg hne] at hh
    exact ⟨hv', hh⟩
  intro r₁ v₁ hv₁ hV₁ hW₁ r₂ v₂ hu
  rw [hpte] at hV₁ hW₁ hu
  by_cases h₁ : r₁ = r ∧ v₁ = v
  · obtain ⟨rfl, rfl⟩ := h₁
    rw [if_pos ⟨rfl, rfl⟩] at hV₁ hW₁ hu
    by_contra h₂
    have := (hw hv₁ hV₁ r₂ v₂ h₂ (huses hu h₂)).1
    rw [hW₁] at this; cases this
  · rw [if_neg h₁] at hV₁ hW₁ hu
    by_cases h₂ : r₂ = r ∧ v₂ = v
    · -- the new entry would share a page that `(r₁, v₁)` may write
      obtain ⟨rfl, rfl⟩ := h₂
      obtain ⟨hv, hh⟩ := hu
      rw [hpte, if_pos ⟨rfl, rfl⟩] at hh
      have := (hw hv hh.1 r₁ v₁ h₁ ⟨hv₁, hV₁, hh.2.symm⟩).2
      rw [hW₁] at this; cases this
    · exact h r₁ v₁ hv₁ hV₁ hW₁ r₂ v₂ (huses hu h₂)

/-- Two users of one page: neither may write it. -/
theorem Excl.not_writable (h : V.Excl) {r v r' v' q : Nat} (hu : V.Uses r v q) (hu' : V.Uses r' v' q)
    (hne : ¬ (r' = r ∧ v' = v)) : has (V.pte r' v') pteW = false := by
  by_contra hW
  rw [Bool.not_eq_false] at hW
  obtain ⟨rfl, rfl⟩ := h r' v' hu'.1 hu'.2.1 hW r v (by rw [hu'.2.2]; exact hu)
  exact hne ⟨rfl, rfl⟩

end View

section
variable [KernelImage] {V V' : View}

theorem View.Excl.edit (h : V.Excl) {e : Edit} (hl : V.Legal e) : (V.edit e).Excl := by
  cases e with
  | map r v w =>
    exact h.update (View.edit_pte_some rfl) fun _ _ r' v' _ hu => absurd hu (hl.2.2.2.2.2.1.1 r' v')
  | kmap r v w => exact h.update (View.edit_pte_some rfl) fun hv => absurd hl.1 (by omega)
  | cow r v =>
    refine h.update (View.edit_pte_some rfl) fun hv hV r' v' hne hu => ⟨(has_cowedPte _).1, ?_⟩
    rw [(has_cowedPte _).2.1] at hV
    rw [pte2pa_cowedPte] at hu
    exact h.not_writable ⟨hv, hV, rfl⟩ hu hne
  | share old new v =>
    by_cases hV : has (V.pte old v) pteV
    · refine h.update (View.edit_pte_some (if_pos hV)) fun hv _ r' v' _ hu =>
        ⟨(has_sharedPte _).1, ?_⟩
      rw [pte2pa_sharedPte] at hu
      by_cases hold : r' = old ∧ v' = v
      · rw [hold.1, hold.2]; exact hl.2.2.1
      · exact h.not_writable ⟨hv, hV, rfl⟩ hu hold
    · exact h.congr (View.edit_pte_none (if_neg hV))
  | clear r v =>
    have hpa := pte2pa_and_not (V.pte r v) toNat_pte_lt.2.2.2.2.1
    refine h.update (View.edit_pte_some rfl) fun hv _ r' v' hne hu => ?_
    rw [hpa] at hu
    have hu₀ : V.Uses r v (pte2pa (V.pte r v)) := ⟨hv, hl.2.1, rfl⟩
    exact ⟨by simp [h.not_writable hu hu₀ fun he => hne ⟨he.1.symm, he.2.symm⟩],
      h.not_writable hu₀ hu hne⟩
  | copy r v pa =>
    obtain ⟨-, -, -, -, -, hman, hfresh, -⟩ := hl
    refine h.update (View.edit_pte_some rfl) fun _ _ r' v' _ hu => absurd hu ?_
    rw [pte2pa_copiedPte (managed_lt hman) hman.1]
    exact hfresh.1 r' v'
  | promote r v =>
    refine h.update (View.edit_pte_some rfl) fun _ _ r' v' hne hu => absurd ?_ hne
    rw [pte2pa_promotedPte] at hu
    exact hl.2.2.2.2.1 r' v' hu
  | unmap r v =>
    by_cases hV : has (V.pte r v) pteV
    · exact h.update (View.edit_pte_some (if_pos hV)) fun _ hV => absurd hV (by simp)
    · exact h.congr (View.edit_pte_none (if_neg hV))
  | write r v page => exact h.congr rfl

/-! ## contents -/

/-- What is seen at a page after an edit. -/
def Edit.sees (V : View) : Edit → Nat → Nat → Page
  | .share old new v, r', v' => if r' = new ∧ v' = v then V.sees old v else V.sees r' v'
  | .unmap r v, r', v' => if r' = r ∧ v' = v then zeroPage else V.sees r' v'
  | .write r v page, r', v' => if r' = r ∧ v' = v then page else V.sees r' v'
  | _, r', v' => V.sees r' v'

/-- Only sharing, unmapping and writing change what is seen. -/
theorem View.edit_sees (hc : V.Clean) {e : Edit} (hl : V.Legal e) {r' v' : Nat} (hv' : v' < userVpn) :
    (V.edit e).sees r' v' = e.sees V r' v' := by
  cases e with
  | map r v w =>
    have hzero : V.sees r v = zeroPage := (hc r v (by rw [hl.2.1]; simp)).2
    have hset : (V.set r v w zeroPage).sees r' v' = V.sees r' v' := by
      rw [View.set_sees]
      split
      next he => rw [he.1, he.2, hzero]
      next => rfl
    by_cases hU : has w pteU <;> simp only [View.edit, Edit.sees, hU, if_true, if_false,
      View.record_sees, hset, Bool.false_eq_true]
  | kmap r v w =>
    have : v' ≠ v := fun he => by have := hl.1; omega
    simp [View.edit, Edit.sees, this]
  | share old new v =>
    by_cases hV : has (V.pte old v) pteV
    · by_cases hU : has (sharedPte (V.pte old v)) pteU <;> simp [View.edit, Edit.sees, hV, hU]
    · -- both entries are unmapped
      have h1 := (hc old v (by simpa using hV)).2
      have h2 := (hc new v (by rw [hl.2.1]; simp)).2
      simp only [View.edit, Edit.sees, hV, Bool.false_eq_true, if_false]
      split
      next he => rw [he.1, he.2, h1, h2]
      next => rfl
  | unmap r v =>
    by_cases hV : has (V.pte r v) pteV
    · by_cases hs : V.Sole r v (pte2pa (V.pte r v)) <;> simp [View.edit, Edit.sees, hV, hs]
    · have h1 := (hc r v (by simpa using hV)).2
      simp only [View.edit, Edit.sees, hV, Bool.false_eq_true, if_false]
      split
      next he => rw [he.1, he.2, h1]
      next => rfl
  | write r v page =>
    have hiff : V.Uses r' v' (pte2pa (V.pte r v)) ↔ r' = r ∧ v' = v :=
      ⟨hl.2.2 r' v', fun he => by rw [he.1, he.2]; exact ⟨hl.1, hl.2.1, rfl⟩⟩
    simp only [View.edit, Edit.sees, hiff]
  | cow | clear | copy | promote => simp [View.edit, Edit.sees]

section
omit [KernelImage]

theorem View.Clean.congr (hc : V.Clean) (hp : V'.pte = V.pte) (hs : V'.sees = V.sees) : V'.Clean := by
  unfold View.Clean
  rw [hp, hs]
  exact hc

theorem View.Clean.set (hc : V.Clean) {r v : Nat} {w : Word} {page : Page}
    (hw : has w pteV = false → w = 0 ∧ page = zeroPage) : (V.set r v w page).Clean := by
  intro r' v' hV
  rw [View.set_pte] at hV ⊢
  rw [View.set_sees]
  by_cases he : r' = r ∧ v' = v
  · simp only [if_pos he] at hV ⊢
    exact hw hV
  · simp only [if_neg he] at hV ⊢
    exact hc r' v' hV

/-- An entry that stays valid. -/
theorem View.Clean.setPte (hc : V.Clean) {r v : Nat} {w : Word}
    (hw : has w pteV = has (V.pte r v) pteV) (h0 : V.pte r v = 0 → w = 0) : (V.setPte r v w).Clean :=
  hc.set fun hV => by
    rw [hw] at hV
    exact ⟨h0 (hc r v hV).1, (hc r v hV).2⟩

end

theorem View.Clean.edit (hc : V.Clean) {e : Edit} (hl : V.Legal e) : (V.edit e).Clean := by
  have hvalid : ∀ {w : Word} {page : Page}, has w pteV → has w pteV = false → w = 0 ∧ page = zeroPage :=
    fun h1 h2 => by rw [h1] at h2; cases h2
  cases e with
  | map r v w =>
    have hset : (V.set r v w zeroPage).Clean := hc.set (hvalid hl.2.2.1)
    rw [View.edit]
    split
    · exact hset.congr rfl rfl
    · exact hset
  | kmap r v w =>
    refine hc.set fun hV => ⟨?_, rfl⟩
    rcases hl.2 with hw | hw
    · rw [hw] at hV; cases hV
    · exact hw
  | cow r v => exact hc.setPte (has_cowedPte _).2.1 fun h0 => by rw [h0]; decide
  | share old new v =>
    have hset : (V.set new v (sharedPte (V.pte old v)) (V.sees old v)).Clean :=
      hc.set (hvalid (has_sharedPte _).2.1)
    rw [View.edit]
    split
    · split
      · exact hset.congr rfl rfl
      · exact hset
    · exact hc
  | clear r v => exact hc.setPte (by simp) fun h0 => by rw [h0]; decide
  | copy r v pa =>
    exact View.Clean.congr (hc.set (hvalid (by simp [copiedPte]))) rfl rfl
  | promote r v =>
    exact View.Clean.congr (hc.set (hvalid (by simp [promotedPte, hl.2.1]))) rfl rfl
  | unmap r v =>
    have hset : (V.set r v 0 zeroPage).Clean := hc.set fun _ => ⟨rfl, rfl⟩
    rw [View.edit]
    split
    · split
      · exact hset.congr rfl rfl
      · exact hset
    · exact hc
  | write r v page =>
    intro r' v' hV
    have hV₀ : has (V.pte r' v') pteV = false := hV
    refine ⟨(hc r' v' hV₀).1, ?_⟩
    have hu : ¬ V.Uses r' v' (pte2pa (V.pte r v)) := fun hu => by
      rw [hu.2.1] at hV₀; cases hV₀
    simp only [View.edit, if_neg hu]
    exact (hc r' v' hV₀).2

theorem Edits.excl {es : List Edit} (h : Edits V es V') (hx : V.Excl) : V'.Excl :=
  h.invariant (fun _ _ hV hl => hV.edit hl) hx

theorem Edits.clean {es : List Edit} (h : Edits V es V') (hc : V.Clean) : V'.Clean :=
  h.invariant (fun _ _ hV hl => hV.edit hl) hc

omit [KernelImage] in
theorem Edit.sees_of_ne {e : Edit} {r v : Nat} (h : e.place ≠ (r, v)) (W : View) : e.sees W r v = W.sees r v := by
  cases e <;> simp only [Edit.place, ne_eq, Prod.mk.injEq] at h <;> simp only [Edit.sees] <;>
    rw [if_neg fun hc => h ⟨hc.1.symm, hc.2.symm⟩]

theorem Edits.sees_eq {r v : Nat} (hv : v < userVpn) : ∀ {es : List Edit} {V V' : View}, Edits V es V' → V.Clean →
    (∀ e ∈ es, ∀ W, e.sees W r v = W.sees r v) → V'.sees r v = V.sees r v
  | [], V, V', h, _, _ => by rw [Edits.nil_iff.mp h]
  | e :: es, V, V', h, hc, hsees => by
      obtain ⟨hl, h⟩ := Edits.cons_iff.mp h
      rw [h.sees_eq hv (hc.edit hl) fun e' he' => hsees e' (List.mem_cons_of_mem _ he'),
        View.edit_sees hc hl hv, hsees e List.mem_cons_self]

/-- Pages that no edit is about are seen as before. -/
theorem Edits.sees_of_ne {r v : Nat} (hv : v < userVpn) {es : List Edit} {V V' : View} (h : Edits V es V')
    (hc : V.Clean) (hne : ∀ e ∈ es, e.place ≠ (r, v)) : V'.sees r v = V.sees r v :=
  h.sees_eq hv hc fun e he => Edit.sees_of_ne (hne e he)

/-- An edit of the table `r`, or one that write-protects a page of another. -/
def Edit.Aside (r : Nat) (e : Edit) : Prop := e.place.1 = r ∨ ∃ r' v, e = .cow r' v

end

end MiniOS
