import MiniOS.Proc
import MiniOS.Lib.Aging
import MiniOS.Lib.Runs

/-!
# MiniOS.Sched

The dynamic-priority scheduler of `kernel/proc.c` and `kernel/sched.h`: a
round selects one `RUNNABLE` process, ages the others, and runs the winner
until it gives the CPU up again.

`scheduler()` holds `wait_lock` from the scan to the moment the winner is
`RUNNING`, so this part of a round is one event (`dispatch`).  What the
winner does to leave the CPU, and what the scheduler does to its entry
afterwards, happens under its `p->lock` and is one event as well.  Between
them any CPU may run wakeups, kills, forks, exits and waits.
-/

namespace MiniOS

open Function (update update_self update_of_ne)

/-- `SCHED_ALPHA`, the aging increment. -/
def schedAlpha : Int := 5
/-- `SCHED_BETA`, the penalty of a CPU-bound process. -/
def schedBeta : Int := 10
/-- `SCHED_MAX`. -/
def schedMax : Int := 100
/-- `SCHED_MIN`. -/
def schedMin : Int := 0
/-- `SCHED_WMAX`, the waiting time from which a process is selected at once. -/
def schedWmax : Nat := 50
/-- `SCHED_TCPU_MAX`. -/
def schedTcpuMax : Nat := 1
/-- `SCHED_W`, the rounds of a window. -/
def schedW : Nat := 50

/-- The process table with the scheduler's `window_tick` and `nextpid`. -/
structure Sched where
  procs : Table
  windowTick : Nat
  nextpid : Nat

/-! ## scheduler -/

/-- The scan of phase 1 over the entries `ps`, with the best entry so far. -/
def phase1 (t : Table) : List (Fin nproc) → Option (Fin nproc) → Option (Fin nproc)
  | [], best => best
  | p :: ps, best =>
    if (t p).state = .runnable then
      -- starvation priority: immediate selection
      if schedWmax ≤ (t p).waitTicks then some p
      -- `best == 0 || p->priority > best->priority`
      else if best.all fun b => (t b).priority < (t p).priority then phase1 t ps (some p)
      else phase1 t ps best
    else phase1 t ps best

/-- The process phase 1 selects. -/
def selectBest (t : Table) : Option (Fin nproc) := phase1 t (List.finRange nproc) none

/-- What phase 2 does to an entry that was not selected. -/
def Proc.age (p : Proc) : Proc :=
  if p.state = .runnable then
    let priority := p.priority + schedAlpha
    { p with
      waitTicks := p.waitTicks + 1
      priority := if schedMax < priority then schedMax else priority }
  else p

/-- Phase 2, and the winner starting to run. -/
def phase2 (t : Table) (best : Fin nproc) : Table := fun p =>
  if p = best then { t p with state := .running, waitTicks := 0 } else (t p).age

/-- The accounting of `scheduler()` once `best` has switched back to it. -/
def switchedBack (s : Sched) (best : Fin nproc) : Sched :=
  let p := s.procs best
  let cpuTicks := p.cpuTicks + 1
  let priority :=
    if schedTcpuMax < cpuTicks then
      if p.priority - schedBeta < schedMin then schedMin else p.priority - schedBeta
    else p.priority
  let t := update s.procs best { p with cpuTicks := cpuTicks, priority := priority }
  let windowTick := s.windowTick + 1
  if schedW ≤ windowTick then
    { s with procs := fun i => { t i with cpuTicks := 0 }, windowTick := 0 }
  else { s with procs := t, windowTick := windowTick }

/-- A running process changes its entry by `f` and calls `sched()`. -/
def giveUp (s : Sched) (p : Fin nproc) (f : Proc → Proc) : Option Sched :=
  if (s.procs p).state = .running then
    some (switchedBack { s with procs := update s.procs p (f (s.procs p)) } p)
  else none

/-! ## events -/

def yield (s : Sched) (p : Fin nproc) : Option Sched :=
  giveUp s p fun q => { q with state := .runnable }

/-- `usertrap` and `kerneltrap` on a timer interrupt. -/
def timerYield (s : Sched) (p : Fin nproc) : Option Sched :=
  giveUp s p fun q => { q with cpuTicks := q.cpuTicks + 1, state := .runnable }

def sleep (s : Sched) (p : Fin nproc) (chan : Nat) : Option Sched :=
  giveUp s p fun q => { q with chan := chan, state := .sleeping }

/-- The end of `kexit`. -/
def exitSched (s : Sched) (p : Fin nproc) (status : BitVec 32) : Option Sched :=
  giveUp s p fun q => { q with xstate := status, state := .zombie }

/-- `wakeup(chan)`, called by `caller` or by an interrupt handler. -/
def wakeup (s : Sched) (caller : Option (Fin nproc)) (chan : Nat) : Sched :=
  { s with procs := fun i =>
      if some i ≠ caller ∧ (s.procs i).state = .sleeping ∧ (s.procs i).chan = chan then
        { s.procs i with state := .runnable }
      else s.procs i }

/-- `kkill(pid)`. -/
def kkill (s : Sched) (pid : Nat) : Sched :=
  match (List.finRange nproc).find? fun i => (s.procs i).pid = pid with
  | none => s
  | some i =>
    let q := { s.procs i with killed := true }
    let q := if q.state = .sleeping then { q with state := .runnable } else q
    { s with procs := update s.procs i q }

/-- `kfork` by `p` as the table sees it: `pages` are the trapframe and the
root page table, or `none` when memory ran out and the entry is freed again. -/
def forkSched (s : Sched) (p : Fin nproc) (pages : Option (Nat × Nat)) : Option Sched :=
  if (s.procs p).state = .running then
    match s.procs.firstUnused with
    | none => some s
    | some np =>
      let q := match pages with
        | none => { s.procs np with pid := s.nextpid, state := .used }.freed
        | some (trapframe, pagetable) =>
          ((s.procs np).allocated s.nextpid trapframe pagetable).forked (s.procs p) p
      some { s with procs := update s.procs np q, nextpid := s.nextpid + 1 }
  else none

/-- `userinit` as the table sees it. -/
def userinitSched (s : Sched) (trapframe pagetable : Nat) : Option Sched :=
  s.procs.firstUnused.map fun np =>
    { s with
      procs := update s.procs np
        { (s.procs np).allocated s.nextpid trapframe pagetable with state := .runnable }
      nextpid := s.nextpid + 1 }

/-- `kwait` frees the zombie `p`. -/
def reapSched (s : Sched) (p : Fin nproc) : Option Sched :=
  if (s.procs p).state = .zombie then
    some { s with procs := update s.procs p (s.procs p).freed }
  else none

/-- The scheduler and what it runs concurrently with. -/
inductive SchedEvent
  | dispatch
  | yield (p : Fin nproc)
  | timer (p : Fin nproc)
  | sleep (p : Fin nproc) (chan : Nat)
  | exit (p : Fin nproc) (status : BitVec 32)
  | wakeup (caller : Option (Fin nproc)) (chan : Nat)
  | kill (pid : Nat)
  | fork (p : Fin nproc) (pages : Option (Nat × Nat))
  | userinit (trapframe pagetable : Nat)
  | reap (p : Fin nproc)
deriving DecidableEq, Repr

/-- Phases 1 and 2 of a scheduler round; with nothing to run the round is idle. -/
def dispatch (s : Sched) : Sched :=
  match selectBest s.procs with
  | none => s
  | some best => { s with procs := phase2 s.procs best }

/-- One event; `none` when it cannot happen in this state. -/
def schedStep (s : Sched) : SchedEvent → Option Sched
  | .dispatch => some (dispatch s)
  | .yield p => yield s p
  | .timer p => timerYield s p
  | .sleep p chan => sleep s p chan
  | .exit p status => exitSched s p status
  | .wakeup caller chan => some (wakeup s caller chan)
  | .kill pid => some (kkill s pid)
  | .fork p pages => forkSched s p pages
  | .userinit trapframe pagetable => userinitSched s trapframe pagetable
  | .reap p => reapSched s p

/-! ## what phase 1 selects -/

/-- Ready to run and passed over `SCHED_WMAX` times. -/
def Overdue (p : Proc) : Prop := p.state = .runnable ∧ schedWmax ≤ p.waitTicks

instance (p : Proc) : Decidable (Overdue p) := inferInstanceAs (Decidable (_ ∧ _))

variable {t : Table} {p b : Fin nproc} {s s' : Sched}

/-- The first overdue entry ends the scan, whatever was best before it. -/
theorem phase1_of_find :
    ∀ {ps : List (Fin nproc)} {best : Option (Fin nproc)},
      ps.find? (fun q => Overdue (t q)) = some p → phase1 t ps best = some p
  | q :: ps, best, h => by
      rw [phase1]
      by_cases hq : Overdue (t q)
      · rw [List.find?_cons_of_pos (by simpa using hq)] at h
        rw [if_pos hq.1, if_pos hq.2, h]
      · rw [List.find?_cons_of_neg (by simpa using hq)] at h
        by_cases hrun : (t q).state = .runnable
        · rw [if_pos hrun, if_neg fun hw => hq ⟨hrun, hw⟩]
          split <;> exact phase1_of_find h
        · rw [if_neg hrun]
          exact phase1_of_find h

theorem phase1_runnable :
    ∀ {ps : List (Fin nproc)} {best : Option (Fin nproc)},
      (∀ x, best = some x → (t x).state = .runnable) → phase1 t ps best = some b →
      (t b).state = .runnable
  | [], best, hbest, h => hbest b h
  | q :: ps, best, hbest, h => by
      rw [phase1] at h
      split at h
      next hrun =>
        have hq : ∀ x, some q = some x → (t x).state = .runnable := by
          rintro x ⟨⟩; exact hrun
        split at h
        · exact hq b h
        · split at h
          · exact phase1_runnable hq h
          · exact phase1_runnable hbest h
      next => exact phase1_runnable hbest h

theorem selectBest_runnable (h : selectBest t = some b) :
    (t b).state = .runnable :=
  phase1_runnable (by simp) h

theorem phase1_isSome :
    ∀ {ps : List (Fin nproc)} {best : Option (Fin nproc)},
      best.isSome ∨ (∃ p ∈ ps, (t p).state = .runnable) → (phase1 t ps best).isSome
  | [], best, h => by simpa [phase1] using h
  | q :: ps, best, h => by
      rw [phase1]
      split
      · split
        · rfl
        · split
          · exact phase1_isSome (.inl rfl)
          next hbest => exact phase1_isSome (.inl (by cases best <;> simp_all))
      next hq =>
        refine phase1_isSome (h.imp_right ?_)
        rintro ⟨p, hp, hrun⟩
        rcases List.mem_cons.mp hp with rfl | hp
        · exact absurd hrun hq
        · exact ⟨p, hp, hrun⟩

theorem selectBest_isSome (h : (t p).state = .runnable) :
    ∃ b, selectBest t = some b :=
  Option.isSome_iff_exists.mp (phase1_isSome (.inr ⟨p, List.mem_finRange p, h⟩))

/-- If some process is overdue, the one selected is overdue and has the
lowest index among the overdue ones. -/
theorem selectBest_overdue {x : Fin nproc} (hx : Overdue (t x)) :
    ∃ b ≤ x, Overdue (t b) ∧ selectBest t = some b := by
  have hsome : ((List.finRange nproc).find? fun q => Overdue (t q)).isSome := by
    rw [List.find?_isSome]
    exact ⟨x, List.mem_finRange x, by simpa using hx⟩
  obtain ⟨b, hb⟩ := Option.isSome_iff_exists.mp hsome
  refine ⟨b, ?_, by simpa using List.find?_some hb, phase1_of_find hb⟩
  obtain ⟨-, i, hi, rfl, hbefore⟩ := List.find?_eq_some_iff_getElem.mp hb
  by_contra hlt
  have hxi : x.val < i := by simpa [Fin.lt_def] using hlt
  have := hbefore x.val hxi
  simp [hx] at this

/-! ## waiting times -/

/-- The waiting times of the table. -/
def waits (s : Sched) : Fin nproc → Nat := fun p => (s.procs p).waitTicks

/-- The processes a round can select. -/
def runnables (s : Sched) : Finset (Fin nproc) :=
  Finset.univ.filter fun p => (s.procs p).state = .runnable

theorem mem_runnables :
    p ∈ runnables s ↔ (s.procs p).state = .runnable := by simp [runnables]

theorem waits_dispatch (h : selectBest s.procs = some b) :
    waits (dispatch s) = Aging.tick (runnables s) b (waits s) := by
  funext p
  simp only [waits, dispatch, h, phase2, Aging.tick, mem_runnables, Proc.age]
  split
  · rfl
  · split <;> rfl

theorem switchedBack_state (s : Sched) (b p : Fin nproc) :
    ((switchedBack s b).procs p).state = (s.procs p).state := by
  by_cases hp : p = b <;> simp only [switchedBack] <;> split <;> simp [hp]

theorem switchedBack_waitTicks (s : Sched) (b p : Fin nproc) :
    ((switchedBack s b).procs p).waitTicks = (s.procs p).waitTicks := by
  by_cases hp : p = b <;> simp only [switchedBack] <;> split <;> simp [hp]

/-- Only `RUNNABLE` processes have waited. -/
def IdleZero (s : Sched) : Prop := ∀ p, (s.procs p).state ≠ .runnable → (s.procs p).waitTicks = 0

/-- Outside `dispatch` an entry either keeps its waiting time and stays
`RUNNABLE`, or has waiting time 0. -/
def Calm (s s' : Sched) : Prop := ∀ p,
  (s'.procs p).waitTicks = 0 ∨
    ((s'.procs p).state = .runnable ∧ (s'.procs p).waitTicks = (s.procs p).waitTicks)

theorem Calm.idleZero (h : Calm s s') : IdleZero s' := fun p hp =>
  (h p).resolve_right fun hr => hp hr.1

theorem Calm.waits_le (h : Calm s s') (p : Fin nproc) : waits s' p ≤ waits s p := by
  rcases h p with h | h
  · simp [waits, h]
  · exact h.2.le

/-- An unchanged entry is calm. -/
theorem calm_same (hz : IdleZero s) (p : Fin nproc) :
    (s.procs p).waitTicks = 0 ∨
      ((s.procs p).state = .runnable ∧ (s.procs p).waitTicks = (s.procs p).waitTicks) := by
  by_cases h : (s.procs p).state = .runnable
  · exact .inr ⟨h, rfl⟩
  · exact .inl (hz p h)

/-- Replacing one entry by one that has not waited. -/
theorem calm_update (hz : IdleZero s) (p : Fin nproc) {q : Proc}
    (hq : q.waitTicks = 0) : Calm s { s with procs := update s.procs p q } := by
  intro i
  simp only
  by_cases hi : i = p
  · subst hi
    rw [update_self]
    exact .inl hq
  · rw [update_of_ne hi]
    exact calm_same hz i

theorem calm_giveUp (hz : IdleZero s) (f : Proc → Proc)
    (h : giveUp s p f = some s') (hf : ∀ q, (f q).waitTicks = q.waitTicks) : Calm s s' := by
  rw [giveUp] at h
  split at h
  next hrun =>
    cases h
    have hw : (f (s.procs p)).waitTicks = 0 := by
      rw [hf, hz p (by rw [hrun]; simp)]
    intro i
    rw [switchedBack_waitTicks, switchedBack_state]
    exact calm_update hz p hw i
  next => cases h

/-- Every event but `dispatch` is calm. -/
theorem calm_of_step {e : SchedEvent} (hz : IdleZero s) (he : e ≠ .dispatch)
    (h : schedStep s e = some s') : Calm s s' := by
  cases e with
  | dispatch => exact absurd rfl he
  | yield p =>
    rw [schedStep, yield] at h
    exact calm_giveUp hz _ h fun _ => rfl
  | timer p =>
    rw [schedStep, timerYield] at h
    exact calm_giveUp hz _ h fun _ => rfl
  | sleep p chan =>
    rw [schedStep, sleep] at h
    exact calm_giveUp hz _ h fun _ => rfl
  | exit p status =>
    rw [schedStep, exitSched] at h
    exact calm_giveUp hz _ h fun _ => rfl
  | wakeup caller chan =>
    cases h
    intro i
    simp only [wakeup]
    split
    next hs => exact .inl (hz i (by rw [hs.2.1]; simp))
    next => exact calm_same hz i
  | kill pid =>
    cases h
    rw [kkill]
    split
    · exact calm_same hz
    next i hi =>
      by_cases hs : (s.procs i).state = .sleeping
      · simp only [hs, if_true]
        exact calm_update hz i (hz i (by rw [hs]; simp))
      · simp only [hs, if_false]
        intro j
        by_cases hj : j = i
        · subst hj
          simpa using calm_same hz j
        · simpa [hj] using calm_same hz j
  | fork p pages =>
    rw [schedStep, forkSched] at h
    split at h
    next =>
      split at h
      · cases h; exact calm_same hz
      next np hnp =>
        cases h
        have hw : (s.procs np).waitTicks = 0 := hz np (by
          rw [Table.firstUnused_state hnp]; simp)
        refine calm_update hz np ?_
        cases pages <;> first | rfl | exact hw
    next => cases h
  | userinit trapframe pagetable =>
    obtain ⟨np, -, rfl⟩ := Option.map_eq_some_iff.mp h
    exact calm_update hz np rfl
  | reap p =>
    rw [schedStep, reapSched] at h
    split at h
    next hs =>
      cases h
      exact calm_update hz p (hz p (by rw [hs]; simp))
    next => cases h

/-! ## bounded waiting -/

/-- A table in which nobody has waited yet. -/
def Rested (s : Sched) : Prop := ∀ p, (s.procs p).waitTicks = 0

/-- When the scheduler selects, at most `SCHED_WMAX + 1` processes are `RUNNABLE`. -/
def Uncrowded (s : Sched) (e : SchedEvent) : Prop :=
  e = .dispatch → (runnables s).card ≤ schedWmax + 1

theorem idleZero_dispatch (hz : IdleZero s) : IdleZero (dispatch s) := by
  intro p hp
  cases hb : selectBest s.procs with
  | none =>
    rw [dispatch, hb] at hp ⊢
    exact hz p hp
  | some b =>
    simp only [dispatch, hb, phase2] at hp ⊢
    split
    · rfl
    next hpb =>
      rw [if_neg hpb] at hp
      by_cases hrun : (s.procs p).state = .runnable
      · simp [Proc.age, hrun] at hp
      · simp [Proc.age, hrun, hz p hrun]

theorem bounded_dispatch (hz : IdleZero s) (hw : Aging.Bounded schedWmax (waits s))
    (hc : (runnables s).card ≤ schedWmax + 1) : Aging.Bounded schedWmax (waits (dispatch s)) := by
  cases hb : selectBest s.procs with
  | none => rwa [dispatch, hb]
  | some b =>
    rw [waits_dispatch hb]
    refine hw.tick (fun i hi => hz i fun h => hi (mem_runnables.mpr h))
      (mem_runnables.mpr (selectBest_runnable hb)) hc fun x hx hover => ?_
    obtain ⟨c, -, hc, hsel⟩ := selectBest_overdue ⟨mem_runnables.mp hx, hover⟩
    rw [hb] at hsel
    cases hsel
    exact hc.2

/-- One event that does not find more than `SCHED_WMAX + 1` processes to
choose from keeps the waiting times bounded. -/
theorem bounded_step (s : Sched) (e : SchedEvent) (s' : Sched)
    (h : IdleZero s ∧ Aging.Bounded schedWmax (waits s)) (hu : Uncrowded s e)
    (hs : schedStep s e = some s') : IdleZero s' ∧ Aging.Bounded schedWmax (waits s') := by
  by_cases he : e = .dispatch
  · subst he
    cases hs
    exact ⟨idleZero_dispatch h.1, bounded_dispatch h.1 h.2 (hu rfl)⟩
  · have hcalm := calm_of_step h.1 he hs
    exact ⟨hcalm.idleZero, h.2.mono hcalm.waits_le⟩

/-- As long as at most `SCHED_WMAX + 1` processes are `RUNNABLE` whenever the
scheduler selects, no `RUNNABLE` process waits more than
`SCHED_WMAX + NPROC` rounds. -/
theorem waitTicks_le_of_uncrowded {s s' : Sched} {es : List SchedEvent} (h₀ : Rested s)
    (hu : Runs.Along schedStep Uncrowded s es) (hr : Runs.run schedStep s es = some s')
    (p : Fin nproc) : (s'.procs p).waitTicks ≤ schedWmax + nproc := by
  have hinit : IdleZero s ∧ Aging.Bounded schedWmax (waits s) := by
    refine ⟨fun p _ => h₀ p, fun x m hm hx => ?_⟩
    rw [waits, h₀ x] at hx
    omega
  have hbound := (Runs.invariant bounded_step hinit hu hr).2.le p
  simp only [waits, schedWmax, nproc] at hbound ⊢
  omega

/-- A table of two processes that have just become `RUNNABLE`. -/
def pairTable : Sched where
  procs := fun p =>
    if p.val < 2 then
      { Proc.fresh with state := .runnable, pid := p + 1, priority := schedDefault }
    else Proc.fresh
  windowTick := 0
  nextpid := 3

/-- Two processes: the first is selected and yields. -/
theorem waitTicks_le_pairTable :
    ∃ s', Runs.run schedStep pairTable [.dispatch, .yield 0] = some s' ∧
      ∀ p, (s'.procs p).waitTicks ≤ schedWmax + nproc := by
  have hrest : Rested pairTable := fun p => by
    simp only [pairTable]; split <;> rfl
  have hu : Runs.Along schedStep Uncrowded pairTable [.dispatch, .yield 0] :=
    ⟨fun _ => by decide +kernel, fun _ _ => ⟨nofun, fun _ _ => trivial⟩⟩
  have hrun : (Runs.run schedStep pairTable [.dispatch, .yield 0]).isSome := by decide +kernel
  obtain ⟨s', hs'⟩ := Option.isSome_iff_exists.mp hrun
  exact ⟨s', hs', waitTicks_le_of_uncrowded hrest hu hs'⟩

/-! ## starvation -/

/-- The `SCHED_WMAX + 1` lowest entries of the table. -/
def lowest : Finset (Fin nproc) := Finset.univ.filter fun p => p.val ≤ schedWmax

/-- The entry right above them. -/
def starved : Fin nproc := ⟨schedWmax + 1, by decide⟩

theorem card_lowest : lowest.card = schedWmax + 1 := by decide +kernel

/-- The lowest entries and the one above them are all `RUNNABLE`. -/
def Crowd (s : Sched) : Prop := ∀ p : Fin nproc, p ≤ starved → (s.procs p).state = .runnable

theorem lowest_subset_runnables (h : Crowd s) : lowest ⊆ runnables s := fun p hp => by
  have hp : p.val ≤ schedWmax := by simpa [lowest] using hp
  exact mem_runnables.mpr (h p (by simp only [starved, Fin.le_def]; omega))

/-- The winner of a round yields at once. -/
theorem yield_dispatch (h : selectBest s.procs = some b) :
    ∃ s', Runs.run schedStep s [.dispatch, .yield b] = some s' ∧
      waits s' = waits (dispatch s) ∧
      ∀ p, (s.procs p).state = .runnable → (s'.procs p).state = .runnable := by
  have hb : ((dispatch s).procs b).state = .running := by simp [dispatch, h, phase2]
  have hy : schedStep (dispatch s) (.yield b) = some (switchedBack { dispatch s with
      procs := update (dispatch s).procs b
        { (dispatch s).procs b with state := .runnable } } b) := if_pos hb
  refine ⟨_, (Runs.run_cons_of_step rfl _).trans (Runs.run_cons_of_step hy _), ?_, ?_⟩
  · funext p
    rw [waits, switchedBack_waitTicks]
    by_cases hp : p = b
    · subst hp; simp [waits]
    · simp [waits, hp]
  · intro p hrun
    rw [switchedBack_state]
    by_cases hp : p = b
    · subst hp; simp
    · simp [dispatch, h, phase2, hp, Proc.age, hrun]

/-- A round in a crowd whose winner yields: the crowd is still there, and
once the lowest entries have waited `SCHED_WMAX` rounds the one above them
is passed over. -/
theorem crowd_round {T : Nat} (h : Crowd s) (hd : Aging.Deep lowest T (waits s)) :
    ∃ b s', Runs.run schedStep s [.dispatch, .yield b] = some s' ∧ Crowd s' ∧
      Aging.Deep lowest (T + 1) (waits s') ∧
      (schedWmax ≤ T → waits s' starved = waits s starved + 1) := by
  obtain ⟨b, hb⟩ := selectBest_isSome (h starved le_rfl)
  obtain ⟨s', hrun, hw, hst⟩ := yield_dispatch hb
  refine ⟨b, s', hrun, fun p hp => hst p (h p hp), ?_, fun hT => ?_⟩
  · rw [hw, waits_dispatch hb]
    exact hd.tick (lowest_subset_runnables h)
  · obtain ⟨x, hx, hover⟩ := hd.overdue (θ := schedWmax) (by rw [card_lowest]; omega) hT
    obtain ⟨c, hcx, -, hsel⟩ :=
      selectBest_overdue ⟨mem_runnables.mp (lowest_subset_runnables h hx), hover⟩
    rw [hb] at hsel
    cases hsel
    have hne : starved ≠ b := by
      rintro rfl
      have hx : x.val ≤ schedWmax := by simpa [lowest] using hx
      simp only [starved, Fin.le_def] at hcx
      omega
    rw [hw, waits_dispatch hb, Aging.tick, if_neg hne, if_pos (mem_runnables.mpr (h _ le_rfl))]

/-- With `SCHED_WMAX + 2` processes that are always ready to run, the last of
them starves: after any number of rounds it has not run for all but
`SCHED_WMAX` of them. -/
theorem crowd_starves (h : Crowd s) (r : Nat) :
    ∃ es s', Runs.run schedStep s es = some s' ∧ Crowd s' ∧ Aging.Deep lowest r (waits s') ∧
      r ≤ waits s' starved + schedWmax := by
  induction r with
  | zero => exact ⟨[], s, rfl, h, Aging.deep_zero _ _, Nat.zero_le _⟩
  | succ r ih =>
    obtain ⟨es, s₁, hr, hc, hd, hw⟩ := ih
    obtain ⟨b, s₂, hr₂, hc₂, hd₂, hw₂⟩ := crowd_round hc hd
    refine ⟨es ++ [.dispatch, .yield b], s₂, ?_, hc₂, hd₂, ?_⟩
    · rw [Runs.run_append, hr]; exact hr₂
    · by_cases hr : schedWmax ≤ r
      · have := hw₂ hr; omega
      · omega

/-- A table of `SCHED_WMAX + 2` processes that have just become `RUNNABLE`. -/
def crowdedTable : Sched where
  procs := fun p =>
    if p ≤ starved then
      { Proc.fresh with state := .runnable, pid := p + 1, priority := schedDefault }
    else Proc.fresh
  windowTick := 0
  nextpid := schedWmax + 3

/-- From 52 fresh processes that always want to run, some run makes one of
them wait longer than `SCHED_WMAX + NPROC` rounds. -/
theorem exists_waitTicks_gt : ∃ es s', Rested crowdedTable ∧
    Runs.run schedStep crowdedTable es = some s' ∧
    ∃ p, (s'.procs p).state = .runnable ∧ schedWmax + nproc < (s'.procs p).waitTicks := by
  have hcrowd : Crowd crowdedTable := fun p hp => by simp [crowdedTable, hp]
  have hrest : Rested crowdedTable := fun p => by
    simp only [crowdedTable]; split <;> rfl
  obtain ⟨es, s', hr, hc, -, hw⟩ := crowd_starves hcrowd (2 * schedWmax + nproc + 1)
  refine ⟨es, s', hrest, hr, starved, hc _ le_rfl, ?_⟩
  simp only [waits] at hw
  omega

end MiniOS
