import Mathlib.Data.Option.Basic
import Mathlib.Data.List.Basic

/-!
# MiniOS.Lib.Runs

Runs of a deterministic machine driven by a list of events, and the rule by
which an invariant of its steps holds along a run.  A step may be guarded:
`Along ok s es` says that each event of the run `es` from `s` meets `ok` in
the state in which it happens.
-/

namespace Runs

variable {σ ε : Type*} (step : σ → ε → Option σ)

/-- The state after the events `es`, if none of them is stuck. -/
def run (s : σ) : List ε → Option σ
  | [] => some s
  | e :: es => (step s e).bind fun s' => run s' es

/-- Every event of the run meets `ok` in the state it finds. -/
def Along (ok : σ → ε → Prop) (s : σ) : List ε → Prop
  | [] => True
  | e :: es => ok s e ∧ ∀ s', step s e = some s' → Along ok s' es

variable {step}

@[simp] theorem run_nil (s : σ) : run step s [] = some s := rfl

theorem run_cons (s : σ) (e : ε) (es : List ε) :
    run step s (e :: es) = (step s e).bind fun s' => run step s' es := rfl

theorem run_cons_of_step {s s' : σ} {e : ε} (h : step s e = some s') (es : List ε) :
    run step s (e :: es) = run step s' es := by rw [run_cons, h]; rfl

theorem run_append (s : σ) (es fs : List ε) :
    run step s (es ++ fs) = (run step s es).bind fun s' => run step s' fs := by
  induction es generalizing s with
  | nil => rfl
  | cons e es ih =>
    rw [List.cons_append, run_cons, run_cons, Option.bind_assoc]
    exact congrArg _ (funext ih)

variable {ok : σ → ε → Prop}

/-- A run can be checked. -/
instance decidableAlong [∀ s e, Decidable (ok s e)] (s : σ) : (es : List ε) → Decidable (Along step ok s es)
  | [] => isTrue trivial
  | e :: es =>
    match hs : step s e with
    | none => decidable_of_iff (ok s e) (by simp [Along, hs])
    | some s' =>
      have := decidableAlong s' es
      decidable_of_iff (ok s e ∧ Along step ok s' es) (by simp [Along, hs])

/-- A guarded invariant: what holds at the start and is kept by every step
that meets the guard holds at the end of every guarded run. -/
theorem invariant {P : σ → Prop}
    (hstep : ∀ s e s', P s → ok s e → step s e = some s' → P s') :
    ∀ {es : List ε} {s s' : σ}, P s → Along step ok s es → run step s es = some s' → P s'
  | [], s, s', h, _, hr => by cases hr; exact h
  | e :: es, s, s', h, ha, hr => by
      obtain ⟨s₁, hs, hr⟩ := Option.bind_eq_some_iff.mp hr
      exact invariant hstep (hstep s e s₁ h ha.1 hs) (ha.2 s₁ hs) hr

/-- If every step keeps `P` exactly when it meets `ok`, and nothing restores
`P`, then a run keeps `P` exactly when all its steps meet `ok`. -/
theorem along_iff {I P : σ → Prop}
    (hstep : ∀ s e s', I s → step s e = some s' → I s' ∧ (P s' ↔ P s ∧ ok s e)) :
    ∀ {es : List ε} {s s' : σ}, I s → run step s es = some s' →
      (P s' ↔ P s ∧ Along step ok s es)
  | [], s, s', _, hr => by cases hr; simp [Along]
  | e :: es, s, s', hI, hr => by
      obtain ⟨s₁, hs, hr⟩ := Option.bind_eq_some_iff.mp hr
      obtain ⟨hI₁, hP⟩ := hstep s e s₁ hI hs
      have hrest : (∀ t, step s e = some t → Along step ok t es) ↔ Along step ok s₁ es :=
        ⟨fun h => h s₁ hs, fun h t ht => by rw [hs] at ht; cases ht; exact h⟩
      rw [along_iff hstep hI₁ hr, hP, Along, hrest, and_assoc]

theorem along_true (s : σ) (es : List ε) : Along step (fun _ _ => True) s es := by
  induction es generalizing s with
  | nil => trivial
  | cons e es ih => exact ⟨trivial, fun s' _ => ih s'⟩

/-- An invariant of every step holds at the end of every run. -/
theorem invariant_of_step {P : σ → Prop} (hstep : ∀ s e s', P s → step s e = some s' → P s')
    {es : List ε} {s s' : σ} (h : P s) (hr : run step s es = some s') : P s' :=
  invariant (fun s e s' hs _ => hstep s e s' hs) h (along_true s es) hr

end Runs
