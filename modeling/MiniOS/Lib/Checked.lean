import Mathlib.Data.Option.Basic

/-!
# MiniOS.Lib.Checked

Programs in `StateT σ (Except ε)`, which return or stop with an error.
`Sat A f s Q` says that `f` started in `s` either returns, with `Q` true of
the result and the final state, or stops with an error that `A` allows.
-/

namespace Checked

universe u

variable {ε σ α β : Type u} {A : ε → Prop}

/-- `f` returns from `s` with `Q`, or stops with an error in `A`. -/
def Sat (A : ε → Prop) (f : StateT σ (Except ε) α) (s : σ) (Q : α → σ → Prop) : Prop :=
  match f s with
  | .ok (a, s') => Q a s'
  | .error e => A e

variable {f : StateT σ (Except ε) α} {s : σ} {Q : α → σ → Prop} {a : α}

theorem Sat.mono {R : α → σ → Prop} (h : Sat A f s Q)
    (himp : ∀ a s', Q a s' → R a s') : Sat A f s R := by
  unfold Sat at h ⊢
  cases hf : f s with
  | ok r => rw [hf] at h; exact himp _ _ h
  | error e => rw [hf] at h; exact h

theorem sat_and {R : α → σ → Prop} (hQ : Sat A f s Q)
    (hR : Sat A f s R) : Sat A f s fun a s' => Q a s' ∧ R a s' := by
  unfold Sat at *
  cases hf : f s with
  | ok r => rw [hf] at hQ hR; exact ⟨hQ, hR⟩
  | error e => rw [hf] at hQ; exact hQ

/-- Results that hold of all runs, whatever stops them, can be added. -/
theorem Sat.and_always {R : α → σ → Prop} (hQ : Sat A f s Q)
    (hR : Sat (fun _ => True) f s R) : Sat A f s fun a s' => Q a s' ∧ R a s' := by
  unfold Sat at *
  cases hf : f s with
  | ok r => rw [hf] at hQ hR; exact ⟨hQ, hR⟩
  | error e => rw [hf] at hQ; exact hQ

/-- Nothing is said about the program. -/
theorem sat_trivial (f : StateT σ (Except ε) α) (s : σ) : Sat (fun _ => True) f s fun _ _ => True := by
  unfold Sat
  split <;> trivial

theorem sat_pure (h : Q a s) :
    Sat A (pure a : StateT σ (Except ε) α) s Q := h

theorem sat_throw {e : ε} (h : A e) :
    Sat A (throw e : StateT σ (Except ε) α) s Q := h

theorem sat_ite {c : Prop} [Decidable c] {g : StateT σ (Except ε) α}
    (hf : c → Sat A f s Q) (hg : ¬ c → Sat A g s Q) : Sat A (if c then f else g) s Q := by
  split
  · next h => exact hf h
  · next h => exact hg h

theorem Sat.bind {g : α → StateT σ (Except ε) β}
    {P : α → σ → Prop} {Q : β → σ → Prop} (hf : Sat A f s P)
    (hg : ∀ a s', P a s' → Sat A (g a) s' Q) : Sat A (f >>= g) s Q := by
  unfold Sat at hf
  have hbind : (f >>= g) s = (f s).bind fun r => g r.1 r.2 := rfl
  cases hr : f s with
  | ok r =>
    rw [hr] at hf
    have := hg _ _ hf
    unfold Sat at this ⊢
    rw [hbind, hr]
    exact this
  | error e =>
    rw [hr] at hf
    unfold Sat
    rw [hbind, hr]
    exact hf

theorem sat_throw_bind {e : ε} {g : α → StateT σ (Except ε) β} {Q : β → σ → Prop} (h : A e) :
    Sat A ((throw e : StateT σ (Except ε) α) >>= g) s Q := h

/-- A step whose result and effect are known. -/
theorem sat_of_eq {t : σ}
    (hf : f s = .ok (a, t)) (h : Q a t) : Sat A f s Q := by
  unfold Sat
  rw [hf]
  exact h

/-- A first step whose result and effect are known. -/
theorem sat_bind {g : α → StateT σ (Except ε) β} {t : σ}
    {Q : β → σ → Prop} (hf : f s = .ok (a, t)) (hg : Sat A (g a) t Q) : Sat A (f >>= g) s Q :=
  Sat.bind (P := fun b u => b = a ∧ u = t) (sat_of_eq hf ⟨rfl, rfl⟩)
    fun _ _ h => by rw [h.1, h.2]; exact hg

/-- A loop keeps what each of its rounds keeps. -/
theorem sat_forM {γ : Type u} {f : γ → StateT σ (Except ε) PUnit} {I : σ → Prop} {l : List γ}
    (hf : ∀ a ∈ l, ∀ s, I s → Sat A (f a) s fun _ => I) (h : I s) :
    Sat A (l.forM f) s fun _ => I := by
  induction l generalizing s with
  | nil => exact h
  | cons a l ih =>
    exact (hf a (by simp) s h).bind fun _ _ h' => ih (fun b hb => hf b (by simp [hb])) h'

/-- What is known of every result is known of the one a run has. -/
theorem Sat.of_run {s' : σ}
    (h : Sat A f s Q) (hr : f s = .ok (a, s')) : Q a s' := by
  unfold Sat at h
  rw [hr] at h
  exact h

/-- Only allowed errors stop a run. -/
theorem Sat.of_error {e : ε}
    (h : Sat A f s Q) (hr : f s = .error e) : A e := by
  unfold Sat at h
  rw [hr] at h
  exact h

/-! ## Programs that keep a relation -/

/-- If `f` returns at all, its final state is in the relation `R` to the one it started in. -/
def Within (R : σ → σ → Prop) (f : StateT σ (Except ε) α) : Prop :=
  ∀ s, Sat (fun _ => True) f s fun _ s' => R s s'

section
variable {R : σ → σ → Prop} {f : StateT σ (Except ε) α} {g : α → StateT σ (Except ε) β}

theorem within_throw {e : ε} : Within R (throw e : StateT σ (Except ε) α) := fun _ => trivial

theorem within_modify {h : σ → σ} (hR : ∀ s, R s (h s)) :
    Within R (modify h : StateT σ (Except ε) PUnit) := fun s => hR s

theorem Within.ite {c : Prop} [Decidable c] {f g : StateT σ (Except ε) α} (hf : Within R f)
    (hg : Within R g) : Within R (if c then f else g) := fun s => sat_ite (fun _ => hf s) fun _ => hg s

variable [Std.Refl R]

theorem within_pure {a : α} : Within R (pure a : StateT σ (Except ε) α) := fun s => refl_of R s

theorem within_get : Within R (get : StateT σ (Except ε) σ) := fun s => refl_of R s

variable [IsTrans σ R]

omit [Std.Refl R] in
theorem Within.bind (hf : Within R f) (hg : ∀ a, Within R (g a)) : Within R (f >>= g) := fun s =>
  (hf s).bind fun a s' h => (hg a s').mono fun _ _ h' => trans_of R h h'

theorem within_get_bind {g : σ → StateT σ (Except ε) β} (hg : ∀ s, Within R (g s)) :
    Within R (get >>= g) := within_get.bind hg

end

end Checked
