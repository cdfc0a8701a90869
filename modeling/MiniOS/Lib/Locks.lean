import Mathlib.Logic.Relation

/-!
# MiniOS.Lib.Locks

Spinlocks `L` and those who take them, `C`.  `holder` is the state of the locks
and `held` says which ones the code of each party believes to hold.  The second
part rules out deadlock where one outer lock is held by whoever waits for a
lock while holding another.
-/

namespace Locks

variable {L C : Type*}

/-- The locks after `c` has acquired `acq` and released `rel`. -/
def relock [DecidableEq L] (holder : L → Option C) (c : C) (acq rel : Option L) (l : L) : Option C :=
  if rel = some l then none else if acq = some l then some c else holder l

/-- The state of the locks is what the code believes. -/
def Agree (holder : L → Option C) (held : C → L → Prop) : Prop := ∀ l c, holder l = some c ↔ held c l

section
variable {holder : L → Option C} {held held' : C → L → Prop} {c : C} {acq rel : Option L}

/-- A lock has one holder. -/
theorem Agree.unique (h : Agree holder held) {l : L} {a b : C} (ha : held a l) (hb : held b l) : a = b := by
  have := (h l a).mpr ha
  rw [(h l b).mpr hb] at this
  exact (Option.some.inj this).symm

variable [DecidableEq L]

/-- A step of `c` that acquires a free lock or releases one of its own. -/
theorem Agree.relock (h : Agree holder held) (hacq : ∀ l, acq = some l → holder l = none)
    (hrel : ∀ l, rel = some l → held c l)
    (hself : ∀ l, held' c l ↔ rel ≠ some l ∧ (acq = some l ∨ held c l))
    (hother : ∀ a, a ≠ c → ∀ l, held' a l ↔ held a l) : Agree (relock holder c acq rel) held' := by
  intro l a
  unfold Locks.relock
  by_cases ha : a = c
  · subst ha
    rw [hself]
    split
    · next hr => simp [hr]
    · next hr =>
      split
      · next hq => simp [hr, hq]
      · next hq => simp [hr, hq, h l a]
  · rw [hother a ha]
    split
    · next hr =>
      -- it was held by `c`, so by nobody else
      have hc := hrel l hr
      simp only [reduceCtorEq, false_iff]
      exact fun hal => ha (h.unique hal hc)
    · split
      · next hq =>
        have hnone := hacq l hq
        simp only [Option.some.injEq]
        refine ⟨fun hca => absurd hca.symm ha, fun hal => ?_⟩
        rw [(h l a).mpr hal] at hnone
        cases hnone
      · exact h l a

end

/-! ## Deadlock -/

/-- `a` holds a lock that `b` waits for. -/
def Blocks (holder : L → Option C) (wants : C → L → Prop) (a b : C) : Prop :=
  ∃ l, holder l = some a ∧ wants b l

/-- No cycle of parties that block each other, if whoever waits for a lock while holding others waits for
none of those and holds the lock `outer`. -/
theorem no_cycle {holder : L → Option C} {wants : C → L → Prop} (outer : L)
    (h : ∀ b l m, wants b l → holder m = some b → m ≠ l ∧ holder outer = some b) (c : C) :
    ¬Relation.TransGen (Blocks holder wants) c c := by
  intro hcycle
  -- everyone on the cycle holds `outer`, so there is only one
  have hholds : ∀ a b d, Blocks holder wants a b → Blocks holder wants b d → holder outer = some b := by
    rintro a b d ⟨l, -, hl⟩ ⟨m, hm, -⟩
    exact (h b l m hl hm).2
  obtain ⟨b, hcb, hbc⟩ := (Relation.TransGen.head'_iff).mp hcycle
  have hself : Blocks holder wants c c := by
    rcases Relation.ReflTransGen.cases_head hbc with rfl | ⟨d, hbd, hdc⟩
    · exact hcb
    · obtain ⟨a, -, hac⟩ := (Relation.TransGen.tail'_iff).mp hcycle
      have hb := hholds c b d hcb hbd
      have hc := hholds a c b hac hcb
      rw [hb] at hc
      exact Option.some.inj hc ▸ hcb
  obtain ⟨l, hl, hw⟩ := hself
  exact (h c l l hw hl).1 rfl

end Locks
