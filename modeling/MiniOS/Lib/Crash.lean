import Mathlib.Logic.Function.Basic
import Mathlib.Logic.Relation
import Mathlib.Data.List.Basic

/-!
# MiniOS.Lib.Crash

Programs on a store whose writes are atomic one by one.  A program is the list
of writes it makes from a given store; a crash leaves the store after some
prefix of them.  Recovery is itself such a program and may crash and be
restarted any number of times before it completes.
-/

namespace Crash

variable {A V : Type*} [DecidableEq A]

/-- The writes a program makes when it starts in a given store. -/
abbrev Prog (A V : Type*) := (A → V) → List (A × V)

/-- The store after a list of writes. -/
def apply (d : A → V) : List (A × V) → A → V
  | [] => d
  | w :: ws => apply (Function.update d w.1 w.2) ws

/-- The program that runs `p` and then `q`. -/
def Prog.seq (p q : Prog A V) : Prog A V := fun d => p d ++ q (apply d (p d))

/-- A crash of `p`, or its end, can leave the store `d'`. -/
def Interrupted (p : Prog A V) (d d' : A → V) : Prop := ∃ k, d' = apply d ((p d).take k)

/-- The store after the first completed run of `p`, which was interrupted and
restarted any number of times before. -/
def Recovered (p : Prog A V) (d d' : A → V) : Prop :=
  ∃ d₁, Relation.ReflTransGen (Interrupted p) d d₁ ∧ d' = apply d₁ (p d₁)

theorem apply_append (d : A → V) (ws vs : List (A × V)) :
    apply d (ws ++ vs) = apply (apply d ws) vs := by
  induction ws generalizing d with
  | nil => rfl
  | cons w ws ih => exact ih _

theorem apply_of_forall_ne {d : A → V} {ws : List (A × V)} {a : A} (h : ∀ w ∈ ws, w.1 ≠ a) :
    apply d ws a = d a := by
  induction ws generalizing d with
  | nil => rfl
  | cons w ws ih =>
    rw [apply, ih fun v hv => h v (List.mem_cons_of_mem _ hv),
      Function.update_of_ne (h w List.mem_cons_self).symm]

/-- Writing `f a` at each address `a` of a list. -/
theorem apply_map (d f : A → V) (as : List A) (a : A) :
    apply d (as.map fun a => (a, f a)) a = if a ∈ as then f a else d a := by
  induction as generalizing d with
  | nil => rfl
  | cons b as ih =>
    rw [List.map_cons, apply, ih]
    by_cases ha : a ∈ as
    · rw [if_pos ha, if_pos (List.mem_cons_of_mem _ ha)]
    · by_cases hb : a = b
      · rw [if_neg ha, hb, if_pos List.mem_cons_self, Function.update_self]
      · rw [if_neg ha, Function.update_of_ne hb, if_neg (by simp [ha, hb])]

/-- What holds at every crash point of `ws`, and at every crash point of `vs`
after it, holds at every crash point of the two in sequence. -/
theorem forall_take_append {P : (A → V) → Prop} {d : A → V} {ws vs : List (A × V)}
    (hw : ∀ k, P (apply d (ws.take k))) (hv : ∀ k, P (apply (apply d ws) (vs.take k))) (k : Nat) :
    P (apply d ((ws ++ vs).take k)) := by
  rw [List.take_append, apply_append]
  by_cases hk : k ≤ ws.length
  · rw [Nat.sub_eq_zero_of_le hk]
    exact hw k
  · rw [List.take_of_length_le (by omega)]
    exact hv _

theorem forall_take_singleton {P : (A → V) → Prop} {d : A → V} {w : A × V} (h : P d)
    (hw : P (apply d [w])) : ∀ k, P (apply d ([w].take k))
  | 0 => h
  | k + 1 => by
      rw [List.take_succ_cons, List.take_nil]
      exact hw

/-- An invariant of every crash point of recovery, from which a complete run
establishes `Q`, gives `Q` after the first completed recovery. -/
theorem Recovered.of_invariant {p : Prog A V} {P Q : (A → V) → Prop}
    (hP : ∀ d, P d → ∀ k, P (apply d ((p d).take k))) (hQ : ∀ d, P d → Q (apply d (p d)))
    {d d' : A → V} (h : P d) (hr : Recovered p d d') : Q d' := by
  obtain ⟨d₁, hd, rfl⟩ := hr
  refine hQ d₁ ?_
  induction hd with
  | refl => exact h
  | tail _ hi ih =>
    obtain ⟨k, rfl⟩ := hi
    exact hP _ ih k

end Crash
