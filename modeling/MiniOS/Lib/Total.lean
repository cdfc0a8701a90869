import Mathlib.Data.Option.Basic

/-!
# MiniOS.Lib.Total

Total correctness for programs in `StateT σ Option`, where `none` is a
program that stops without a result.  `Returns f s Q` says that `f` started
in `s` returns, with `Q` true of the result and the final state; it is built
along the program by the rules below.  `Ensures f s Q` is its partial
counterpart: `Q` is true if `f` returns.
-/

namespace Total

universe u

variable {σ α β : Type u}

theorem bind_apply (f : StateT σ Option α) (g : α → StateT σ Option β) (s : σ) :
    (f >>= g) s = (f s).bind fun r => g r.1 r.2 := rfl

theorem pure_apply (a : α) (s : σ) : (pure a : StateT σ Option α) s = some (a, s) := rfl

/-- `f` returns from `s`, with a result and a state that satisfy `Q`. -/
def Returns (f : StateT σ Option α) (s : σ) (Q : α → σ → Prop) : Prop :=
  ∃ a s', f s = some (a, s') ∧ Q a s'

variable {f : StateT σ Option α} {s : σ} {Q R : α → σ → Prop} {a : α} {g : α → StateT σ Option β} {P : Prop}

theorem Returns.mono (h : Returns f s Q)
    (himp : ∀ a s', Q a s' → R a s') : Returns f s R := by
  obtain ⟨a, s', hf, hq⟩ := h
  exact ⟨a, s', hf, himp a s' hq⟩

theorem returns_pure (h : Q a s) :
    Returns (pure a : StateT σ Option α) s Q :=
  ⟨a, s, rfl, h⟩

theorem Returns.bind {P : α → σ → Prop} {Q : β → σ → Prop} (hf : Returns f s P)
    (hg : ∀ a s', P a s' → Returns (g a) s' Q) : Returns (f >>= g) s Q := by
  obtain ⟨a, s', hf, hp⟩ := hf
  obtain ⟨b, s'', hg, hq⟩ := hg a s' hp
  refine ⟨b, s'', ?_, hq⟩
  rw [bind_apply, hf]
  exact hg

/-- A first step whose result and effect are known. -/
theorem returns_bind {t : σ}
    {Q : β → σ → Prop} (hf : f s = some (a, t)) (hg : Returns (g a) t Q) :
    Returns (f >>= g) s Q :=
  Returns.bind (P := fun b u => b = a ∧ u = t) ⟨a, t, hf, rfl, rfl⟩
    fun _ _ h => by rw [h.1, h.2]; exact hg

/-- What is known of every result is known of the one a run has. -/
theorem Returns.of_run {s' : σ}
    (h : Returns f s Q) (hr : f s = some (a, s')) : Q a s' := by
  obtain ⟨b, t, hf, hq⟩ := h
  rw [hf] at hr
  cases hr
  exact hq

/-- The run itself can be kept beside what is known of it. -/
theorem Returns.with_run (h : Returns f s Q) :
    Returns f s fun a s' => f s = some (a, s') ∧ Q a s' := by
  obtain ⟨a, s', hf, hq⟩ := h
  exact ⟨a, s', hf, hf, hq⟩

theorem bind_eq_some {s'' : σ} {b : β} :
    (f >>= g) s = some (b, s'') ↔ ∃ a s', f s = some (a, s') ∧ g a s' = some (b, s'') := by
  rw [bind_apply, Option.bind_eq_some_iff]
  exact ⟨fun ⟨r, hr, hg⟩ => ⟨r.1, r.2, hr, hg⟩, fun ⟨a, s', hf, hg⟩ => ⟨(a, s'), hf, hg⟩⟩

/-! ## Partial correctness -/

/-- If `f` returns from `s`, its result and state satisfy `Q`. -/
def Ensures (f : StateT σ Option α) (s : σ) (Q : α → σ → Prop) : Prop :=
  ∀ a s', f s = some (a, s') → Q a s'

theorem Ensures.mono (h : Ensures f s Q)
    (himp : ∀ a s', Q a s' → R a s') : Ensures f s R :=
  fun a s' hf => himp a s' (h a s' hf)

theorem ensures_pure (h : Q a s) :
    Ensures (pure a : StateT σ Option α) s Q := by
  intro b s' hf
  cases hf
  exact h

theorem ensures_failure :
    Ensures (failure : StateT σ Option α) s Q := nofun

theorem ensures_failure_bind {Q : β → σ → Prop} :
    Ensures (failure >>= g) s Q := nofun

theorem Ensures.bind {P : α → σ → Prop} {Q : β → σ → Prop} (hf : Ensures f s P)
    (hg : ∀ a s', P a s' → Ensures (g a) s' Q) : Ensures (f >>= g) s Q := by
  intro b s'' h
  obtain ⟨a, s', hfs, hgs⟩ := bind_eq_some.mp h
  exact hg a s' (hf a s' hfs) b s'' hgs

theorem ensures_liftM_bind {o : Option α} {Q : β → σ → Prop}
    (h : ∀ a, o = some a → Ensures (g a) s Q) :
    Ensures ((liftM o : StateT σ Option α) >>= g) s Q := by
  cases ho : o with
  | none => exact nofun
  | some a => exact h a ho

/-- A first step whose result and effect are known. -/
theorem ensures_bind {t : σ}
    {Q : β → σ → Prop} (hf : f s = some (a, t)) (hg : Ensures (g a) t Q) :
    Ensures (f >>= g) s Q :=
  Ensures.bind (P := fun b u => b = a ∧ u = t)
    (fun b u h => by rw [hf] at h; cases h; exact ⟨rfl, rfl⟩)
    fun _ _ h => by rw [h.1, h.2]; exact hg

/-! ## Programs that may stop -/

/-- `f` stops without a result only if `P`, and `Q` is true if it returns. -/
def Unless (P : Prop) (f : StateT σ Option α) (s : σ) (Q : α → σ → Prop) : Prop :=
  (f s = none → P) ∧ Ensures f s Q

theorem unless_pure (h : Q a s) :
    Unless P (pure a : StateT σ Option α) s Q :=
  ⟨nofun, ensures_pure h⟩

theorem Returns.unless (h : Returns f s Q) :
    Unless P f s Q := by
  obtain ⟨a, s', hf, hq⟩ := h
  refine ⟨fun hn => ?_, fun b t hb => ?_⟩
  · rw [hf] at hn
    cases hn
  · rw [hf] at hb
    cases hb
    exact hq

theorem Unless.mono {P' : Prop} (h : Unless P f s Q)
    (hP : P → P') (himp : ∀ a s', Q a s' → R a s') : Unless P' f s R :=
  ⟨fun hn => hP (h.1 hn), h.2.mono himp⟩

theorem Unless.bind {Q : β → σ → Prop} (hf : Unless P f s R)
    (hg : ∀ a s', R a s' → Unless P (g a) s' Q) : Unless P (f >>= g) s Q := by
  refine ⟨fun hn => ?_, hf.2.bind fun a s' hr => (hg a s' hr).2⟩
  rw [bind_apply] at hn
  cases hfs : f s with
  | none => exact hf.1 hfs
  | some r =>
    rw [hfs] at hn
    exact (hg r.1 r.2 (hf.2 r.1 r.2 hfs)).1 hn

/-- A first step whose result and effect are known. -/
theorem unless_bind {t : σ}
    {Q : β → σ → Prop} (hf : f s = some (a, t)) (hg : Unless P (g a) t Q) : Unless P (f >>= g) s Q := by
  refine ⟨fun hn => hg.1 ?_, ensures_bind hf hg.2⟩
  rwa [bind_apply, hf] at hn

end Total
