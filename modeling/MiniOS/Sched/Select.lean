import MiniOS.Sched
import Mathlib.Data.Finset.Option
import Mathlib.Data.List.Sort
import Mathlib.Order.Bounds.Basic

/-!
# MiniOS.Sched.Select

Phase 1 of a scheduler round with the calls of `acquire` and `release` it
makes.  The scan holds the lock of the entry it looks at and the lock of the
best entry so far, and gives one of the two back before it goes on.
-/

namespace MiniOS

/-- A call of `acquire(&p->lock)` or `release(&p->lock)`. -/
inductive LockCall
  | acquire (p : Fin nproc)
  | release (p : Fin nproc)
deriving DecidableEq, Repr

/-- `if(best) release(&best->lock)`. -/
def releaseBest (best : Option (Fin nproc)) : List LockCall := best.toList.map .release

/-- The loop of phase 1 over the entries `ps`: the best entry at its end, and
the calls of `acquire` and `release` in order. -/
def phase1Scan (t : Table) :
    List (Fin nproc) → Option (Fin nproc) → Option (Fin nproc) × List LockCall
  | [], best => (best, [])
  | p :: ps, best =>
    if (t p).state = .runnable then
      if schedWmax ≤ (t p).waitTicks then (some p, .acquire p :: releaseBest best)
      else if best.all fun b => (t b).priority < (t p).priority then
        -- `continue`: `p->lock` stays held
        let r := phase1Scan t ps (some p)
        (r.1, .acquire p :: (releaseBest best ++ r.2))
      else
        let r := phase1Scan t ps best
        (r.1, .acquire p :: .release p :: r.2)
    else
      let r := phase1Scan t ps best
      (r.1, .acquire p :: .release p :: r.2)

/-- Phase 1 of a round. -/
def scanTable (t : Table) : Option (Fin nproc) × List LockCall :=
  phase1Scan t (List.finRange nproc) none

/-- The scan selects what `phase1` says. -/
theorem phase1Scan_fst (t : Table) :
    ∀ (ps : List (Fin nproc)) (best : Option (Fin nproc)), (phase1Scan t ps best).1 = phase1 t ps best
  | [], _ => rfl
  | p :: ps, best => by
      rw [phase1Scan, phase1]
      split
      · split
        · rfl
        · split
          · exact phase1Scan_fst t ps (some p)
          · exact phase1Scan_fst t ps best
      · exact phase1Scan_fst t ps best

theorem scanTable_fst (t : Table) : (scanTable t).1 = selectBest t := phase1Scan_fst t _ _

/-! ## The choice -/

/-- `a` goes before `b`: it has the higher priority, or the same and the lower index. -/
def Before (t : Table) (a b : Fin nproc) : Prop :=
  (t b).priority < (t a).priority ∨ (t a).priority = (t b).priority ∧ a ≤ b

theorem Before.refl (t : Table) (a : Fin nproc) : Before t a a := .inr ⟨rfl, le_rfl⟩

theorem Before.trans {t : Table} {a b c : Fin nproc} (h : Before t a b) (h' : Before t b c) :
    Before t a c := by
  unfold Before at *
  omega

/-- Without an overdue entry the scan ends at one that goes before the best
entry it started with and before every `RUNNABLE` entry it saw. -/
theorem phase1_before {t : Table} {b : Fin nproc} :
    ∀ {ps : List (Fin nproc)} {best : Option (Fin nproc)}, ps.Pairwise (· < ·) →
      (∀ x ∈ best, ∀ p ∈ ps, x < p) → (∀ p ∈ ps, ¬Overdue (t p)) → phase1 t ps best = some b →
      (∀ x ∈ best, Before t b x) ∧ ∀ p ∈ ps, (t p).state = .runnable → Before t b p
  | [], best, _, _, _, h => by
      cases h
      exact ⟨fun x hx => by cases hx; exact .refl t b, nofun⟩
  | p :: ps, best, hsort, hbest, hdue, h => by
      obtain ⟨hp, hsort⟩ := List.pairwise_cons.mp hsort
      have hdue' : ∀ q ∈ ps, ¬Overdue (t q) := fun q hq => hdue q (.tail _ hq)
      have hbest' : ∀ x ∈ best, ∀ q ∈ ps, x < q := fun x hx q hq => hbest x hx q (.tail _ hq)
      rw [phase1] at h
      split at h
      next hrun =>
        rw [if_neg fun hw => hdue p (.head _) ⟨hrun, hw⟩] at h
        split at h
        next hmax =>
          -- `p` is the new best entry
          obtain ⟨hbp, hrest⟩ := phase1_before hsort (fun x hx => by cases hx; exact hp) hdue' h
          have hbp := hbp p rfl
          refine ⟨fun x hx => hbp.trans (.inl ?_), fun q hq hq' => ?_⟩
          · cases hx
            simpa using hmax
          · rcases List.mem_cons.mp hq with rfl | hq
            · exact hbp
            · exact hrest q hq hq'
        next hmax =>
          obtain ⟨hold, hrest⟩ := phase1_before hsort hbest' hdue' h
          refine ⟨hold, fun q hq hq' => ?_⟩
          rcases List.mem_cons.mp hq with rfl | hq
          · obtain ⟨x, rfl⟩ : ∃ x, best = some x := by
              cases best with
              | none => simp at hmax
              | some x => exact ⟨x, rfl⟩
            have hlt := hbest x rfl q (.head _)
            have hle : ¬(t x).priority < (t q).priority := by simpa using hmax
            refine (hold x rfl).trans ?_
            unfold Before
            omega
          · exact hrest q hq hq'
      next hrun =>
        obtain ⟨hold, hrest⟩ := phase1_before hsort hbest' hdue' h
        refine ⟨hold, fun q hq hq' => ?_⟩
        rcases List.mem_cons.mp hq with rfl | hq
        · exact absurd hq' hrun
        · exact hrest q hq hq'

/-- The `RUNNABLE` processes that no `RUNNABLE` process exceeds in priority. -/
def topPriority (t : Table) : Set (Fin nproc) :=
  {p | (t p).state = .runnable ∧ ∀ q, (t q).state = .runnable → (t q).priority ≤ (t p).priority}

theorem selectBest_top {t : Table} {b : Fin nproc} (hdue : ∀ p, ¬Overdue (t p))
    (h : selectBest t = some b) : IsLeast (topPriority t) b := by
  have hbefore : ∀ p, (t p).state = .runnable → Before t b p := fun p hp =>
    (phase1_before (List.sortedLT_finRange nproc).pairwise (by simp) (fun p _ => hdue p) h).2 p
      (List.mem_finRange p) hp
  have hrun := selectBest_runnable h
  refine ⟨⟨hrun, fun q hq => ?_⟩, fun p hp => ?_⟩
  · rcases hbefore q hq with hlt | heq
    · exact hlt.le
    · exact heq.1.ge
  · rcases hbefore p hp.1 with hlt | heq
    · exact absurd (hp.2 b hrun) (not_le.mpr hlt)
    · exact heq.2

theorem selectBest_eq_none_iff {t : Table} :
    selectBest t = none ↔ ∀ p, (t p).state ≠ .runnable := by
  refine ⟨fun h p hp => ?_, fun h => ?_⟩
  · obtain ⟨b, hb⟩ := selectBest_isSome hp
    rw [h] at hb
    cases hb
  · cases hb : selectBest t with
    | none => rfl
    | some b => exact absurd (selectBest_runnable hb) (h b)

/-! ## The locks -/

/-- The locks held after some calls, from those held before.  `acquire` of a
lock the CPU holds and `release` of one it does not hold panic. -/
def lockRun (held : Finset (Fin nproc)) : List LockCall → Option (Finset (Fin nproc))
  | [] => some held
  | .acquire p :: calls => if p ∈ held then none else lockRun (insert p held) calls
  | .release p :: calls => if p ∈ held then lockRun (held.erase p) calls else none

theorem lockRun_acquire {held : Finset (Fin nproc)} {p : Fin nproc} (h : p ∉ held)
    (calls : List LockCall) :
    lockRun held (.acquire p :: calls) = lockRun (insert p held) calls := if_neg h

theorem lockRun_release {held : Finset (Fin nproc)} {p : Fin nproc} (h : p ∉ held)
    (calls : List LockCall) :
    lockRun (insert p held) (.release p :: calls) = lockRun held calls := by
  rw [lockRun, if_pos (Finset.mem_insert_self p held), Finset.erase_insert h]

/-- The lock of the entry before the new one is given back. -/
theorem lockRun_releaseBest {best : Option (Fin nproc)} {p : Fin nproc} (h : p ∉ best)
    (calls : List LockCall) :
    lockRun (insert p best.toFinset) (releaseBest best ++ calls) = lockRun {p} calls := by
  cases best with
  | none => rfl
  | some b =>
    have hbp : b ∉ ({p} : Finset (Fin nproc)) := by
      rintro hb
      exact h (by rw [Finset.mem_singleton.mp hb]; rfl)
    have hset : insert p (some b).toFinset = insert b {p} := by
      rw [Option.toFinset_some, Finset.pair_comm]
    rw [hset]
    exact lockRun_release hbp calls

/-- The scan starts with the lock of the best entry so far and ends with the
lock of the one it selects. -/
theorem lockRun_phase1Scan (t : Table) :
    ∀ (ps : List (Fin nproc)) (best : Option (Fin nproc)), ps.Nodup → (∀ x ∈ best, x ∉ ps) →
      lockRun best.toFinset (phase1Scan t ps best).2 = some (phase1 t ps best).toFinset
  | [], _, _, _ => rfl
  | p :: ps, best, hnodup, hbest => by
      obtain ⟨hp, hnodup⟩ := List.nodup_cons.mp hnodup
      have hpb : p ∉ best := fun h => hbest p h (.head _)
      have hpf : p ∉ best.toFinset := by rwa [Option.mem_toFinset]
      have hbest' : ∀ x ∈ best, x ∉ ps := fun x hx h => hbest x hx (.tail _ h)
      have hskip : lockRun best.toFinset (.acquire p :: .release p :: (phase1Scan t ps best).2) =
          some (phase1 t ps best).toFinset := by
        rw [lockRun_acquire hpf, lockRun_release hpf]
        exact lockRun_phase1Scan t ps best hnodup hbest'
      rw [phase1Scan, phase1]
      split
      · split
        · rw [lockRun_acquire hpf, ← List.append_nil (releaseBest best), lockRun_releaseBest hpb]
          rfl
        · split
          · rw [lockRun_acquire hpf, lockRun_releaseBest hpb]
            exact lockRun_phase1Scan t ps (some p) hnodup fun x hx => by cases hx; exact hp
          · exact hskip
      · exact hskip

/-- Locks that are taken are given back or still held. -/
theorem lockRun_count {p : Fin nproc} :
    ∀ {calls : List LockCall} {held held' : Finset (Fin nproc)}, lockRun held calls = some held' →
      calls.count (.acquire p) + (if p ∈ held then 1 else 0) =
        calls.count (.release p) + (if p ∈ held' then 1 else 0)
  | [], held, held', h => by
      cases h
      rfl
  | .acquire q :: calls, held, held', h => by
      rw [lockRun] at h
      split at h
      · cases h
      next hq =>
        have ih := lockRun_count (p := p) h
        by_cases hpq : q = p
        · subst hpq
          simp [hq] at ih ⊢
          omega
        · have hqp : p ≠ q := fun e => hpq e.symm
          simpa [hpq, hqp] using ih
  | .release q :: calls, held, held', h => by
      rw [lockRun] at h
      split at h
      next hq =>
        have ih := lockRun_count (p := p) h
        by_cases hpq : q = p
        · subst hpq
          simp [hq] at ih ⊢
          omega
        · have hqp : p ≠ q := fun e => hpq e.symm
          simpa [hpq, hqp] using ih
      · cases h

/-- The scan acquires the lock of an entry when it comes to the entry. -/
theorem phase1Scan_count_acquire_le (t : Table) (p : Fin nproc) :
    ∀ (ps : List (Fin nproc)) (best : Option (Fin nproc)),
      (phase1Scan t ps best).2.count (.acquire p) ≤ ps.count p
  | [], _ => le_rfl
  | q :: ps, best => by
      have hrel : (releaseBest best).count (.acquire p) = 0 := by
        simp [releaseBest, List.count_eq_zero]
      have hcount : ((q :: ps).count p) = ps.count p + if q = p then 1 else 0 := by
        rw [List.count_cons]
        simp
      have h₁ := phase1Scan_count_acquire_le t p ps (some q)
      have h₂ := phase1Scan_count_acquire_le t p ps best
      rw [phase1Scan, hcount]
      split
      · split
        · simp [List.count_cons, hrel]
        · split <;> simp [List.count_cons, hrel] <;> omega
      · simp [List.count_cons]
        omega

/-- Phase 1 selects the overdue process of the lowest index, or else the
process of the lowest index among those of the highest priority, and nothing
only if no process is `RUNNABLE`.  It ends with the lock of the selected
process only, and has released each other lock it took once. -/
theorem scanTable_selects (t : Table) :
    ((∃ p, Overdue (t p)) → ∃ b, (scanTable t).1 = some b ∧ IsLeast {p | Overdue (t p)} b) ∧
    ((∀ p, ¬Overdue (t p)) → (∃ p, (t p).state = .runnable) →
      ∃ b, (scanTable t).1 = some b ∧ IsLeast (topPriority t) b) ∧
    ((scanTable t).1 = none ↔ ∀ p, (t p).state ≠ .runnable) ∧
    lockRun ∅ (scanTable t).2 = some (scanTable t).1.toFinset ∧
    (∀ b, (scanTable t).1 = some b →
      (scanTable t).2.count (.acquire b) = 1 ∧ (scanTable t).2.count (.release b) = 0) ∧
    ∀ p, (scanTable t).1 ≠ some p → .acquire p ∈ (scanTable t).2 →
      (scanTable t).2.count (.acquire p) = 1 ∧ (scanTable t).2.count (.release p) = 1 := by
  have hlocks : lockRun ∅ (scanTable t).2 = some (selectBest t).toFinset :=
    lockRun_phase1Scan t _ none (List.nodup_finRange nproc) (by simp)
  have hone : ∀ p, (scanTable t).2.count (.acquire p) ≤ 1 := fun p =>
    (phase1Scan_count_acquire_le t p _ _).trans (List.nodup_iff_count_le_one.mp (List.nodup_finRange nproc) p)
  have hbal : ∀ p, (scanTable t).2.count (.acquire p) =
      (scanTable t).2.count (.release p) + if selectBest t = some p then 1 else 0 := fun p => by
    simpa [Option.mem_toFinset, Option.mem_def] using lockRun_count (p := p) hlocks
  rw [scanTable_fst]
  refine ⟨?_, ?_, selectBest_eq_none_iff, hlocks, ?_, ?_⟩
  · rintro ⟨x, hx⟩
    obtain ⟨b, -, hb, hsel⟩ := selectBest_overdue hx
    refine ⟨b, hsel, hb, fun p hp => ?_⟩
    obtain ⟨c, hcp, -, hc⟩ := selectBest_overdue hp
    rw [hsel] at hc
    cases hc
    exact hcp
  · rintro hdue ⟨p, hp⟩
    obtain ⟨b, hb⟩ := selectBest_isSome hp
    exact ⟨b, hb, selectBest_top hdue hb⟩
  · intro b hb
    have := hbal b
    have := hone b
    rw [if_pos hb] at *
    omega
  · intro p hp hmem
    have := hbal p
    have := hone p
    have := List.count_pos_iff.mpr hmem
    rw [if_neg hp] at *
    omega

end MiniOS
