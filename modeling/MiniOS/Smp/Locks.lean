import MiniOS.Smp.Fetch

/-!
# MiniOS.Smp.Locks

A process is on one CPU at a time, and no CPUs wait for each other in a
circle.  `Smp.Inv` is kept by every step.  What other CPUs rely on is what their
locks protect: a step changes the state of an entry only under the entry's
lock.
-/

namespace MiniOS

open Runs
open Function (update_self update_of_ne)

namespace Smp

variable {n : Nat} {s s' : Smp n} {c : Fin n} {ch : Choice} {x : Instr} {i p : Fin nproc}

/-! ## The invariant -/

/-- What holds where a CPU is. -/
def CodeOk (s : Smp n) : Code → Prop
  | .scan i best => ∀ b, best = some b → b.val < i ∧ s.state b = .runnable
  | .exam i best => ∀ b, best = some b → b.val < i ∧ s.state b = .runnable
  | .age b _ => s.state b = .runnable
  | .aged b i => s.state b = .runnable ∧ b ≠ i
  | .swtch b => s.state b = .running ∧ (s.tab.thread b).ready
  | .inProc p => s.state p = if (s.tab.thread p).top = .exitSw then .zombie else .running
  | .back b => s.state b ≠ .running
  | _ => True

structure Inv (s : Smp n) : Prop where
  lock : Locks.Agree s.holder fun c l => l ∈ s.held c
  code : ∀ c, s.CodeOk (s.cpu c)
  current : ∀ c, s.current c = (s.cpu c).proc
  unique : ∀ c c' p, (s.cpu c).proc = some p → (s.cpu c').proc = some p → c = c'
  running : ∀ p, s.state p = .running → ∃ c, (s.cpu c).proc = some p
  ready : ∀ p, s.state p = .runnable ∨ s.state p = .sleeping → (s.tab.thread p).ready
  child : ∀ p np, (s.tab.thread p).base.child = some np →
    s.state np = .used ∧ s.tab.thread np = ⟨.forkret, []⟩
  children : ∀ p p' np, (s.tab.thread p).base.child = some np → (s.tab.thread p').base.child = some np → p = p'
  thread : ∀ p, (s.tab.thread p).Ok p

theorem inv_boot : (boot : Smp n).Inv where
  lock := fun l c => by simp [boot, held, Code.held]
  code := fun c => trivial
  current := fun c => rfl
  unique := fun c c' p h => by cases h
  running := fun p h => by
    simp only [state, boot] at h
    split at h <;> cases h
  ready := fun p _ => rfl
  child := fun p np h => by cases h
  children := fun p p' np h => by cases h
  thread := fun p => ⟨fun h => absurd rfl h, by simp [boot], by simp [boot]⟩

/-- The locks that the scheduler acquires and releases. -/
theorem held_fetch_code (hok : s.CodeOk (s.cpu c))
    (h : s.fetch c ch = some x) (hk : ∀ p, s.cpu c ≠ .inProc p) (l : Lock) :
    (l ∈ x.next.heldCode ↔ x.rel ≠ some l ∧ (x.acq = some l ∨ l ∈ (s.cpu c).held)) ∧
      (x.rel = some l → l ∈ (s.cpu c).held) := by
  unfold Smp.fetch at h
  generalize s.cpu c = k at h hok hk
  cases k with
  | inProc p => exact absurd rfl (hk p)
  | scan i best | exam i best => cases best <;> grind [Code.fetch, Code.held, Next.heldCode, CodeOk]
  | _ => grind [Code.fetch, Code.held, Next.heldCode, CodeOk]

/-- How an action changes the state of entry `i`. -/
inductive Moves (a : Act) (i : Fin nproc) : ProcState → ProcState → Prop
  | same (st : ProcState) : Moves a i st st
  | wake : Moves a i .sleeping .runnable
  | alloc (h : a = .alloc i) : Moves a i .unused .used
  | free (h : a = .free i) : Moves a i .used .unused
  | start (h : a = .start i) : Moves a i .used .runnable
  | dispatch (h : a = .dispatch i) : Moves a i .runnable .running
  | yield (h : a = .yield i) : Moves a i .running .runnable
  | sleep (chan : Nat) (h : a = .sleep i chan) : Moves a i .running .sleeping
  | zombie (status : BitVec 32) (h : a = .zombie i status) : Moves a i .running .zombie
  | reap (p : Fin nproc) (h : a = .reap p i) : Moves a i .zombie .unused

theorem state_perform (s : Smp n) (c : Fin n) (x : Instr) (i : Fin nproc) :
    (s.perform c x).state i = ((s.tab.act x.act).procs i).state := by
  simp [state, perform]

/-- Where the code forks, exits or waits, it is not nested. -/
theorem Inv.base_of_top (h : s.Inv) {k : PC} (hk : (s.tab.thread p).top = k) (hleaf : k.leaf = false) :
    (s.tab.thread p).base = k ∧ (s.tab.thread p).nested = [] := by
  unfold KThread.top at hk
  cases hn : (s.tab.thread p).nested with
  | nil => exact ⟨by simpa [hn] using hk, rfl⟩
  | cons k₀ ks =>
    have := (h.thread p).leaf k₀ (by simp [hn])
    simp_all

theorem Inv.state_inProc (h : s.Inv) (hc : s.cpu c = .inProc p) :
    s.state p = if (s.tab.thread p).top = .exitSw then .zombie else .running := by
  have := h.code c
  rwa [hc] at this

theorem Inv.state_child (h : s.Inv) {k : PC} {np : Fin nproc} (hk : (s.tab.thread p).top = k)
    (hleaf : k.leaf = false) (hchild : k.child = some np) :
    s.state np = .used ∧ s.tab.thread np = ⟨.forkret, []⟩ :=
  h.child p np (by rw [(h.base_of_top hk hleaf).1, hchild])

/-- What a step can do to the state of an entry. -/
theorem Inv.moves (hinv : s.Inv) (h : s.fetch c ch = some x) (i : Fin nproc) :
    Moves x.act i (s.state i) ((s.perform c x).state i) := by
  rw [state_perform]
  by_cases hi : x.act.moved = some i
  · have hg := guard_of_fetch h
    generalize x.act = a at hi hg
    cases a with
    | dispatch b =>
      cases hi
      obtain ⟨j, hc⟩ := hg
      have hst : s.state i = .runnable := by
        have := hinv.code c
        rwa [hc] at this
      rw [hst]
      simpa [Tab.act, Tab.upd] using Moves.dispatch rfl
    | yield b =>
      cases hi
      have hst := hinv.state_inProc hg.1
      rw [hg.2, if_neg (by simp)] at hst
      rw [hst]
      simpa [Tab.act, Tab.upd] using Moves.yield rfl
    | sleep b chan =>
      cases hi
      obtain ⟨hc, lk, hk⟩ := hg
      have hst := hinv.state_inProc hc
      rw [hk, if_neg (by simp)] at hst
      rw [hst]
      simpa [Tab.act, Tab.upd] using Moves.sleep chan rfl
    | wake b chan =>
      cases hi
      simp only [Tab.act, Tab.upd, update_self, Proc.wake]
      split
      · next hs =>
        rw [state, hs.1]
        exact .wake
      · exact .same _
    | kill b pid =>
      cases hi
      simp only [Tab.act, Tab.kill]
      split
      · simp only [Tab.upd, update_self, Proc.kill]
        split
        · next hs =>
          rw [state, hs]
          exact .wake
        · exact .same _
      · exact .same _
    | alloc b =>
      cases hi
      obtain ⟨p, hc, hk, hst⟩ := hg
      rw [hst]
      simpa [Tab.act, Tab.alloc, Tab.upd] using Moves.alloc rfl
    | free b =>
      cases hi
      obtain ⟨p, hc, hk⟩ := hg
      rw [(hinv.state_child hk rfl rfl).1]
      simpa [Tab.act, Tab.upd, Proc.freed] using Moves.free rfl
    | start b =>
      cases hi
      obtain ⟨p, hc, hk⟩ := hg
      rw [(hinv.state_child hk rfl rfl).1]
      simpa [Tab.act, Tab.upd] using Moves.start rfl
    | zombie b status =>
      cases hi
      have hst := hinv.state_inProc hg.1
      rw [hg.2, if_neg (by simp)] at hst
      rw [hst]
      simpa [Tab.act, Tab.zombie, Tab.upd] using Moves.zombie status rfl
    | reap p b =>
      cases hi
      rw [hg.2.2]
      simpa [Tab.act, Tab.reap, Tab.upd, Proc.freed] using Moves.reap p rfl
    | _ => cases hi
  · rw [Tab.state_act hi]
    exact .same _

/-! ## The code of each process after a step -/

theorem alloc_ne (h : s.fetch c ch = some x) {q : Fin nproc} (hq : s.state q ≠ .unused) :
    ∀ i, x.act = .alloc i → q ≠ i := by
  rintro i ha rfl
  have hg := guard_of_fetch h
  rw [ha] at hg
  obtain ⟨p, -, -, hst⟩ := hg
  exact hq hst

/-- The code of a process changes only on its own CPU, or when its entry is allocated. -/
theorem thread_perform_of_ne {q : Fin nproc} (hc : s.cpu c ≠ .inProc q) (ha : ∀ i, x.act = .alloc i → q ≠ i) :
    (s.perform c x).tab.thread q = s.tab.thread q := by
  rw [perform, Tab.rethread_thread_of_ne hc, Tab.thread_act ha]

theorem thread_perform_alloc (hc : s.cpu c ≠ .inProc p) (ha : x.act = .alloc p) :
    (s.perform c x).tab.thread p = ⟨.forkret, []⟩ := by
  rw [perform, Tab.rethread_thread_of_ne hc, ha]
  exact update_self _ _ _

theorem thread_perform_self (hc : s.cpu c = .inProc p) (ha : ∀ i, x.act = .alloc i → p ≠ i) :
    (s.perform c x).tab.thread p = x.next.toThread (s.tab.thread p) := by
  simp only [perform, hc, Tab.rethread, update_self]
  rw [Tab.thread_act ha]

theorem cpu_perform_of_ne {a : Fin n} (ha : a ≠ c) : (s.perform c x).cpu a = s.cpu a :=
  update_of_ne ha _ _

@[simp] theorem cpu_perform_self (s : Smp n) (c : Fin n) (x : Instr) :
    (s.perform c x).cpu c = x.next.toCode (s.cpu c) :=
  update_self _ _ _

/-- A process on a CPU is not `UNUSED`. -/
theorem Inv.inProc_ne_unused (hinv : s.Inv) (hc : s.cpu c = .inProc p) : s.state p ≠ .unused := by
  rw [hinv.state_inProc hc]
  split <;> simp

section
variable (hinv : s.Inv) (h : s.fetch c ch = some x)
include hinv h

theorem Inv.thread_self (hc : s.cpu c = .inProc p) :
    (s.perform c x).tab.thread p = x.next.toThread (s.tab.thread p) :=
  thread_perform_self hc (alloc_ne h (hinv.inProc_ne_unused hc))

/-- What another CPU is in stays as it is. -/
theorem Inv.thread_other {a : Fin n} (ha : a ≠ c)
    (hp : (s.cpu a).proc = some p) (hst : s.state p ≠ .unused) :
    (s.perform c x).tab.thread p = s.tab.thread p := by
  refine thread_perform_of_ne (fun hc => ha ?_) (alloc_ne h hst)
  exact hinv.unique a c p hp (by rw [hc]; rfl)

/-- What a lock of another CPU protects stays as it is. -/
theorem Inv.state_locked {a : Fin n} (ha : a ≠ c)
    (hl : .proc i ∈ s.held a) : (s.perform c x).state i = s.state i := by
  rw [state_perform]
  exact Tab.state_act fun hi => ha (hinv.lock.unique hl (held_of_moved h hi))

/-- A running process stays `RUNNING` unless it acts itself. -/
theorem Inv.state_running (hst : s.state i = .running)
    (hc : s.cpu c ≠ .inProc i) : (s.perform c x).state i = .running := by
  have hm := hinv.moves h i
  have hg := guard_of_fetch h
  rw [hst] at hm
  generalize (s.perform c x).state i = st' at hm
  cases hm with
  | same => rfl
  | yield ha | sleep chan ha | zombie status ha =>
    rw [ha] at hg
    exact absurd hg.1 hc

end

/-- Where `scheduler()` goes on. -/
inductive Scheds (s : Smp n) (c : Fin n) (x : Instr) : Prop
  | code (k : Code) (next : x.next = .code k) (before : (s.cpu c).proc = none) (after : k.proc = none)
      (ok : s.CodeOk k) (act : x.act.moved = none ∨ ∃ chan i j, k = .intr chan i ∧ x.act = .wake j chan)
  | run (b : Fin nproc) (i : Nat) (cpu : s.cpu c = .age b i) (next : x.next = .run b) (act : x.act = .dispatch b)
  | enter (b : Fin nproc) (cpu : s.cpu c = .swtch b) (next : x.next = .enter b) (act : x.act = .none)
  | leave (b : Fin nproc) (cpu : s.cpu c = .back b) (next : x.next = .leave) (act : x.act = .account b)

theorem scheds_of_fetch (hok : s.CodeOk (s.cpu c)) (h : s.fetch c ch = some x) (hk : ∀ p, s.cpu c ≠ .inProc p) :
    Scheds s c x := by
  unfold Smp.fetch at h
  generalize hc : s.cpu c = k at h hok hk
  have hcode (k' : Code) (hn : x.next = .code k') (hf : k.proc = none) (ht : k'.proc = none)
      (hok' : s.CodeOk k')
      (ha : x.act.moved = none ∨ ∃ chan i j, k' = .intr chan i ∧ x.act = .wake j chan) : Scheds s c x :=
    .code k' hn (hc ▸ hf) ht hok' ha
  cases k with
  | inProc p => exact absurd rfl (hk p)
  | scan i best => cases best <;> grind [Code.fetch, CodeOk, Code.proc, Act.moved]
  | _ => grind [Code.fetch, CodeOk, Code.proc, Act.moved, Scheds, state]

/-- The code of the first level goes on from `k` to `k'`. -/
inductive Advances (t : Tab) (p : Fin nproc) (x : Instr) (k k' : PC) : Prop
  | code (ok : Bool) (fetch : k.fetch t p ok = some x) (next : x.next = .pc k' ∨ x.next = .swtch k')
  | call (kc : ProcCall) (idle : k = .idle) (fetch : kc.fetch p false = some x) (next : x.next = .pc k')

/-- How the code of the first level of a process changes. -/
theorem Inv.base_cases (hinv : s.Inv) (h : s.fetch c ch = some x) (p : Fin nproc) :
    (((s.perform c x).tab.thread p).base = (s.tab.thread p).base ∧
        (s.cpu c = .inProc p → (s.tab.thread p).nested ≠ [] ∨ x.act = .none)) ∨
      (x.act = .alloc p ∧ ((s.perform c x).tab.thread p).base = .forkret) ∨
      (s.cpu c = .inProc p ∧ (s.tab.thread p).nested = [] ∧
        Advances s.tab p x (s.tab.thread p).base ((s.perform c x).tab.thread p).base) := by
  by_cases hc : s.cpu c = .inProc p
  · have hth := hinv.thread_self h hc
    rw [fetch_inProc hc] at h
    by_cases hn : (s.tab.thread p).nested = []
    · have htop : (s.tab.thread p).top = (s.tab.thread p).base := by simp [KThread.top, hn]
      have hset (k : PC) : ((s.tab.thread p).setTop k).base = k := by simp [KThread.setTop, hn]
      have hcode {ok : Bool} (h : (s.tab.thread p).top.fetch s.tab p ok = some x) :
          Advances s.tab p x (s.tab.thread p).base ((s.perform c x).tab.thread p).base := by
        rw [htop] at h
        obtain ⟨k, hk, -⟩ | ⟨k, hk, -⟩ := next_of_fetch h <;> rw [hth, hk] <;> refine .code ok h ?_
        · exact .inl (hk.trans (congrArg _ (hset k).symm))
        · exact .inr (hk.trans (congrArg _ (hset k).symm))
      cases ch with
      | go | fail => exact .inr (.inr ⟨hc, hn, hcode h⟩)
      | call kc =>
        simp only [Tab.fetch, hn, htop] at h
        split at h
        · next hidle =>
          obtain ⟨-, -, k, hk, -⟩ := ProcCall.fetch_held h
          refine .inr (.inr ⟨hc, hn, .call kc hidle h ?_⟩)
          rw [hth, hk]
          exact congrArg _ (hset k).symm
        · cases h
      | nest | ret =>
        left
        rw [hth]
        simp only [Tab.fetch, hn] at h
        split at h
        · cases h
          exact ⟨rfl, fun _ => .inr rfl⟩
        · cases h
    · refine .inl ⟨?_, fun _ => .inl hn⟩
      have hset (k : PC) : ((s.tab.thread p).setTop k).base = (s.tab.thread p).base := by
        unfold KThread.setTop
        split <;> simp_all
      rw [hth]
      rcases goes_of_fetch (hinv.thread p) h with ⟨k, hk, -, -⟩ | ⟨k, hk, -, -⟩ | ⟨hk, -, -⟩ | ⟨hk, -, -, -⟩ <;>
        rw [hk]
      · exact hset k
      · exact hset k
      · rfl
      · rfl
  · by_cases ha : x.act = .alloc p
    · exact .inr (.inl ⟨ha, by rw [thread_perform_alloc hc ha]⟩)
    · exact .inl ⟨by rw [thread_perform_of_ne hc fun i hi e => ha (e ▸ hi)], fun h => absurd h hc⟩

/-! ## Every step keeps the invariant -/

theorem held_of_ready {t : KThread} (h : t.ready) : t.top.held p = [.proc p] := by
  unfold KThread.ready at h
  split at h <;> simp_all [PC.held]

section
variable (hinv : s.Inv) (h : s.fetch c ch = some x)
include hinv h

/-- Another CPU holds the same locks as before. -/
theorem Inv.held_other {a : Fin n} (ha : a ≠ c) :
    (s.perform c x).held a = s.held a := by
  cases hk : s.cpu a with
  | inProc p =>
    rw [held_inProc hk, held_inProc ((cpu_perform_of_ne ha).trans hk),
      hinv.thread_other h ha (by rw [hk]; rfl) (hinv.inProc_ne_unused hk)]
  | _ => rw [held_code hk (by simp), held_code ((cpu_perform_of_ne ha).trans hk) (by simp)]

/-- The CPU that takes the step holds what it held, with what it acquired and without what it released. -/
theorem Inv.held_self (l : Lock) :
    (l ∈ (s.perform c x).held c ↔ x.rel ≠ some l ∧ (x.acq = some l ∨ l ∈ s.held c)) ∧
      (x.rel = some l → l ∈ s.held c) := by
  by_cases hk : ∃ p, s.cpu c = .inProc p
  · obtain ⟨p, hc⟩ := hk
    have hth := hinv.thread_self h hc
    rw [fetch_inProc hc] at h
    rw [held_inProc hc]
    have hheld : (s.perform c x).held c = x.next.heldProc p := by
      have hcpu := cpu_perform_self s c x
      rw [hc] at hcpu
      rcases goes_of_fetch (hinv.thread p) h with ⟨k, hn, -, -⟩ | ⟨k, hn, -, -⟩ | ⟨hn, -, -⟩ | ⟨hn, -, -, hne⟩ <;>
        rw [hn] at hcpu hth ⊢
      · rw [held_inProc hcpu, hth]
        exact congrArg _ (KThread.top_setTop _ k)
      · exact held_code hcpu (by simp [Next.toCode])
      · rw [held_inProc hcpu, hth]
        rfl
      · rw [held_inProc hcpu, hth]
        exact ((hinv.thread p).pop hne).2
    rw [hheld]
    exact held_fetch_proc h l
  · have hk' : ∀ p, s.cpu c ≠ .inProc p := fun p hp => hk ⟨p, hp⟩
    rw [held_code rfl hk']
    have hheld : (s.perform c x).held c = x.next.heldCode := by
      have hcpu := cpu_perform_self s c x
      rcases scheds_of_fetch (hinv.code c) h hk' with ⟨k, hn, -, hk, -, -⟩ | ⟨b, i, -, hn, -⟩ |
        ⟨b, hc, hn, ha⟩ | ⟨b, -, hn, -⟩ <;> rw [hn] at hcpu ⊢
      · exact held_code hcpu fun p hp => by simp [hp, Code.proc] at hk
      · exact held_code hcpu (by simp [Next.toCode])
      · -- the process that is entered was waiting with its own lock held
        have hready : (s.tab.thread b).ready := by
          have := hinv.code c
          rw [hc] at this
          exact this.2
        have hth : (s.perform c x).tab.thread b = s.tab.thread b :=
          thread_perform_of_ne (hk' b) fun i hi => by simp [ha] at hi
        rw [held_inProc hcpu, hth]
        exact held_of_ready hready
      · exact held_code hcpu (by simp [Next.toCode])
    rw [hheld]
    exact held_fetch_code (hinv.code c) h hk' l

theorem Inv.lock_step (hacq : ∀ l, x.acq = some l → s.holder l = none) :
    Locks.Agree (s.perform c x).holder fun a l => l ∈ (s.perform c x).held a :=
  hinv.lock.relock hacq (fun l => (hinv.held_self h l).2) (fun l => (hinv.held_self h l).1)
    fun a ha l => by rw [hinv.held_other h ha]

end

/-- What holds where the scheduler is, other than around a switch, is about states. -/
theorem CodeOk.of_state {k : Code} (h : s.CodeOk k) (hk : k.proc = none) (hst : ∀ i, s'.state i = s.state i) :
    s'.CodeOk k := by
  cases k <;> simp_all [CodeOk, Code.proc]

section
variable (hinv : s.Inv)
include hinv

/-- What another CPU relies on stays. -/
theorem Inv.code_other (h : s.fetch c ch = some x) {a : Fin n} (ha : a ≠ c) :
    (s.perform c x).CodeOk ((s.perform c x).cpu a) := by
  have hok := hinv.code a
  rw [cpu_perform_of_ne ha]
  have hst (b : Fin nproc) (hl : .proc b ∈ s.held a) : (s.perform c x).state b = s.state b :=
    hinv.state_locked h ha hl
  cases hk : s.cpu a with
  | scan i best | exam i best =>
    rw [hk] at hok
    intro b hb
    rw [hst b (by rw [held_code hk (by simp)]; simp [Code.held, hb])]
    exact hok b hb
  | age b i | aged b i | back b =>
    rw [hk] at hok
    simp only [CodeOk] at hok ⊢
    rwa [hst b (by rw [held_code hk (by simp)]; simp [Code.held])]
  | swtch b =>
    rw [hk] at hok
    obtain ⟨hrun, hready⟩ := hok
    refine ⟨(hst b (by rw [held_code hk (by simp)]; simp [Code.held])).trans hrun, ?_⟩
    rwa [hinv.thread_other h ha (by rw [hk]; rfl) (by rw [hrun]; simp)]
  | inProc p =>
    have hne : s.cpu c ≠ .inProc p := fun hc => ha (hinv.unique a c p (by rw [hk]; rfl) (by rw [hc]; rfl))
    have hstp := hinv.state_inProc hk
    rw [CodeOk, hinv.thread_other h ha (by rw [hk]; rfl) (hinv.inProc_ne_unused hk), ← hstp]
    by_cases htop : (s.tab.thread p).top = .exitSw
    · exact hst p (by rw [held_inProc hk, htop]; simp [PC.held])
    · rw [if_neg htop] at hstp
      rw [hstp, hinv.state_running h hstp hne]
  | _ => trivial

/-- What holds where the CPU that takes the step goes on. -/
theorem Inv.code_self (h : s.fetch c ch = some x) :
    (s.perform c x).CodeOk ((s.perform c x).cpu c) := by
  rw [cpu_perform_self]
  by_cases hk : ∃ p, s.cpu c = .inProc p
  · obtain ⟨p, hc⟩ := hk
    have hth := hinv.thread_self h hc
    have hm := hinv.moves h p
    have hstp := hinv.state_inProc hc
    rw [fetch_inProc hc] at h
    rw [hc]
    rcases goes_of_fetch (hinv.thread p) h with ⟨k, hn, -, hne, hzombie, hstay, -⟩ | ⟨k, hn, -, hact⟩ |
      ⟨hn, hact, hheld⟩ | ⟨hn, hact, hidle, hne⟩ <;> rw [hn] at hth ⊢
    · change _ = if ((s.perform c x).tab.thread p).top = _ then _ else _
      rw [hth, Next.toThread, KThread.top_setTop]
      rw [if_neg hne] at hstp
      by_cases hz : k = .exitSw
      · obtain ⟨status, ha⟩ := hzombie.mp hz
        rw [if_pos hz, state_perform, ha]
        simp [Tab.act, Tab.zombie, Tab.upd]
      · rw [if_neg hz]
        rw [hstp] at hm
        generalize (s.perform c x).state p = st' at hm ⊢
        cases hm with
        | same => rfl
        | yield ha => exact absurd ha hstay.1
        | sleep chan ha => exact absurd ha (hstay.2 chan)
        | zombie status ha => exact absurd (hzombie.mpr ⟨status, ha⟩) hz
    · change (s.perform c x).state p ≠ .running
      rw [state_perform]
      rcases hact with ⟨ha, -⟩ | ⟨chan, lk, ha, -⟩ | ⟨ha, htop, -⟩ <;> rw [ha]
      · simp [Tab.act, Tab.upd]
      · simp [Tab.act, Tab.upd]
      · rw [if_pos htop] at hstp
        exact fun hrun => absurd (hstp.symm.trans hrun) (by simp)
    · change _ = if ((s.perform c x).tab.thread p).top = _ then _ else _
      rw [hth, if_neg (by simp [Next.toThread]), state_perform, hact]
      rw [if_neg fun e => by simp [e, PC.held] at hheld] at hstp
      exact hstp
    · change _ = if ((s.perform c x).tab.thread p).top = _ then _ else _
      have hpop := ((hinv.thread p).pop hne).2
      rw [hth, if_neg fun e => by simp [show (s.tab.thread p).pop.top = .exitSw from e, PC.held] at hpop,
        state_perform, hact]
      rw [hidle, if_neg (by simp)] at hstp
      exact hstp
  · have hk' : ∀ p, s.cpu c ≠ .inProc p := fun p hp => hk ⟨p, hp⟩
    rcases scheds_of_fetch (hinv.code c) h hk' with ⟨k, hn, -, hk, hok, hact⟩ | ⟨b, i, hc, hn, hact⟩ |
      ⟨b, hc, hn, hact⟩ | ⟨b, hc, hn, hact⟩ <;> rw [hn]
    · rcases hact with hact | ⟨chan, i, j, rfl, -⟩
      · refine hok.of_state hk fun i => ?_
        rw [state_perform]
        exact Tab.state_act (by simp [hact])
      · trivial
    · have hrun : s.state b = .runnable := by
        have := hinv.code c
        rwa [hc] at this
      refine ⟨?_, ?_⟩
      · rw [state_perform, hact]
        simp [Tab.act, Tab.upd]
      · rw [thread_perform_of_ne (hk' b) fun i hi => by simp [hact] at hi]
        exact hinv.ready b (.inl hrun)
    · obtain ⟨hrun, hready⟩ : s.state b = .running ∧ (s.tab.thread b).ready := by
        have := hinv.code c
        rwa [hc] at this
      change _ = if ((s.perform c x).tab.thread b).top = _ then _ else _
      rw [thread_perform_of_ne (hk' b) fun i hi => by simp [hact] at hi,
        if_neg fun e => by simp [KThread.ready, e] at hready, state_perform, hact]
      exact hrun
    · trivial

/-- A CPU comes to a process only by selecting it, and leaves it when it is back from it. -/
theorem Inv.proc_self (h : s.fetch c ch = some x) :
    (((s.perform c x).cpu c).proc = (s.cpu c).proc ∧ ∀ b, x.act ≠ .dispatch b) ∨
      (∃ b, s.cpu c = .back b ∧ ((s.perform c x).cpu c).proc = none ∧ x.act = .account b) ∨
      ∃ b i, s.cpu c = .age b i ∧ ((s.perform c x).cpu c).proc = some b ∧ x.act = .dispatch b := by
  rw [cpu_perform_self]
  by_cases hk : ∃ p, s.cpu c = .inProc p
  · obtain ⟨p, hc⟩ := hk
    have hg := guard_of_fetch h
    rw [fetch_inProc hc] at h
    refine .inl ⟨?_, fun b hb => ?_⟩
    · rw [hc]
      rcases goes_of_fetch (hinv.thread p) h with ⟨k, hn, -, -⟩ | ⟨k, hn, -, -⟩ | ⟨hn, -, -⟩ | ⟨hn, -, -, -⟩ <;>
        rw [hn] <;> rfl
    · rw [hb] at hg
      obtain ⟨i, hi⟩ := hg
      exact absurd (hc.symm.trans hi) (by simp)
  · rcases scheds_of_fetch (hinv.code c) h fun p hp => hk ⟨p, hp⟩ with ⟨k, hn, hb, hk, -, hact⟩ |
      ⟨b, i, hc, hn, hact⟩ | ⟨b, hc, hn, hact⟩ | ⟨b, hc, hn, hact⟩ <;> rw [hn]
    · refine .inl ⟨hk.trans hb.symm, fun b hb => ?_⟩
      rcases hact with hact | ⟨chan, i, j, -, hact⟩ <;> simp [hb, Act.moved] at hact
    · exact .inr (.inr ⟨b, i, hc, rfl, hact⟩)
    · refine .inl ⟨?_, by simp [hact]⟩
      rw [hc]
      rfl
    · exact .inr (.inl ⟨b, hc, rfl, hact⟩)

/-- A `RUNNABLE` process whose lock a CPU holds is on no other CPU. -/
theorem Inv.proc_ne_of_locked {b : Fin nproc} (hrun : s.state b = .runnable)
    (hlock : .proc b ∈ s.held c) {a : Fin n} (ha : a ≠ c) : (s.cpu a).proc ≠ some b := by
  intro hp
  have hok := hinv.code a
  cases hk : s.cpu a with
  | swtch b' =>
    rw [hk] at hp hok
    cases hp
    exact absurd (hrun.symm.trans hok.1) (by simp)
  | inProc p =>
    rw [hk] at hp
    cases hp
    have := hrun.symm.trans (hinv.state_inProc hk)
    split at this <;> cases this
  | back b' =>
    rw [hk] at hp
    cases hp
    refine ha (hinv.lock.unique (l := .proc b) ?_ hlock)
    rw [held_code hk (by simp)]
    simp [Code.held]
  | _ =>
    rw [hk] at hp
    cases hp

/-- The process that is selected is `RUNNABLE`, and its lock held, until it runs. -/
theorem Inv.selected {b : Fin nproc} {i : Nat} (hc : s.cpu c = .age b i) :
    s.state b = .runnable ∧ .proc b ∈ s.held c := by
  have hok := hinv.code c
  rw [hc] at hok
  refine ⟨hok, ?_⟩
  rw [held_code hc (by simp)]
  simp [Code.held]

theorem Inv.unique_step (h : s.fetch c ch = some x) (a a' : Fin n) (p : Fin nproc)
    (ha : ((s.perform c x).cpu a).proc = some p) (ha' : ((s.perform c x).cpu a').proc = some p) : a = a' := by
  -- a CPU other than `c` has the process that it had
  have key (a : Fin n) (hac : a ≠ c) (ha : ((s.perform c x).cpu a).proc = some p)
      (hcp : ((s.perform c x).cpu c).proc = some p) : False := by
    rw [cpu_perform_of_ne hac] at ha
    rcases hinv.proc_self h with ⟨hs, -⟩ | ⟨b, -, hs, -⟩ | ⟨b, i, hc, hs, -⟩
    · exact hac (hinv.unique a c p ha (hs ▸ hcp))
    · rw [hs] at hcp
      cases hcp
    · rw [hs] at hcp
      cases hcp
      obtain ⟨hrun, hlock⟩ := hinv.selected hc
      exact hinv.proc_ne_of_locked hrun hlock hac ha
  by_cases hac : a = c
  · subst hac
    by_contra hne
    exact key a' (Ne.symm hne) ha' ha
  · by_cases hac' : a' = c
    · subst hac'
      exact (key a hac ha ha').elim
    · rw [cpu_perform_of_ne hac] at ha
      rw [cpu_perform_of_ne hac'] at ha'
      exact hinv.unique a a' p ha ha'

theorem Inv.current_step (h : s.fetch c ch = some x) (a : Fin n) :
    (s.perform c x).current a = ((s.perform c x).cpu a).proc := by
  by_cases ha : a = c
  · subst ha
    have hcur : (s.perform a x).current a = x.next.toCurrent (s.current a) := update_self _ _ _
    rw [cpu_perform_self, hcur, hinv.current a]
    by_cases hk : ∃ p, s.cpu a = .inProc p
    · obtain ⟨p, hc⟩ := hk
      rw [fetch_inProc hc] at h
      rw [hc]
      rcases goes_of_fetch (hinv.thread p) h with ⟨k, hn, -, -⟩ | ⟨k, hn, -, -⟩ | ⟨hn, -, -⟩ | ⟨hn, -, -, -⟩ <;>
        rw [hn] <;> rfl
    · rcases scheds_of_fetch (hinv.code a) h fun p hp => hk ⟨p, hp⟩ with ⟨k, hn, hb, hk, -, -⟩ | ⟨b, i, hc, hn, -⟩ |
        ⟨b, hc, hn, -⟩ | ⟨b, hc, hn, -⟩ <;> rw [hn]
      · exact hb.trans hk.symm
      · rfl
      · rw [hc]
        rfl
      · rfl
  · rw [cpu_perform_of_ne ha, ← hinv.current a]
    exact update_of_ne ha _ _

theorem Inv.running_step (h : s.fetch c ch = some x) (p : Fin nproc)
    (hp : (s.perform c x).state p = .running) : ∃ a, ((s.perform c x).cpu a).proc = some p := by
  have hm := hinv.moves h p
  rw [hp] at hm
  generalize hst : s.state p = st at hm
  cases hm with
  | same =>
    obtain ⟨a, ha⟩ := hinv.running p hst
    refine ⟨a, ?_⟩
    by_cases hac : a = c
    · subst hac
      rcases hinv.proc_self h with ⟨hs, -⟩ | ⟨b, hc, -, -⟩ | ⟨b, i, hc, -, -⟩
      · rw [hs, ha]
      · -- a process that a CPU is back from has stopped running
        have hok := hinv.code a
        rw [hc] at ha hok
        cases ha
        exact absurd hst hok
      · rw [hc] at ha
        cases ha
    · rw [cpu_perform_of_ne hac, ha]
  | dispatch ha =>
    rcases hinv.proc_self h with ⟨-, hne⟩ | ⟨b, -, -, hb⟩ | ⟨b, i, -, hs, hb⟩
    · exact absurd ha (hne p)
    · simp [ha] at hb
    · rw [ha] at hb
      cases hb
      exact ⟨c, hs⟩

theorem Inv.ready_step (h : s.fetch c ch = some x) (p : Fin nproc)
    (hp : (s.perform c x).state p = .runnable ∨ (s.perform c x).state p = .sleeping) :
    ((s.perform c x).tab.thread p).ready := by
  by_cases hc : s.cpu c = .inProc p
  · -- it has given up the CPU in this step
    have hself := hinv.code_self h
    have hth := hinv.thread_self h hc
    rw [cpu_perform_self] at hself
    rw [fetch_inProc hc] at h
    rw [hc] at hself
    have hnot (hself : (s.perform c x).CodeOk (.inProc p)) : False := by
      have := hself.symm
      split at this <;> rcases hp with hp | hp <;> rw [hp] at this <;> cases this
    rcases goes_of_fetch (hinv.thread p) h with ⟨k, hn, -, -⟩ | ⟨k, hn, -, hact⟩ | ⟨hn, -, -⟩ | ⟨hn, -, -, -⟩ <;>
      rw [hn] at hself hth
    · exact (hnot hself).elim
    · rw [hth]
      rcases hact with ⟨-, rfl⟩ | ⟨chan, lk, -, rfl⟩ | ⟨ha, htop, -⟩
      · simp [KThread.ready, Next.toThread]
      · simp [KThread.ready, Next.toThread]
      · have hst := hinv.state_inProc hc
        rw [if_pos htop] at hst
        rw [state_perform, ha] at hp
        exact hp.elim (fun hp => by cases hst.symm.trans hp) fun hp => by cases hst.symm.trans hp
    · exact (hnot hself).elim
    · exact (hnot hself).elim
  · have hm := hinv.moves h p
    have hg := guard_of_fetch h
    generalize hst : s.state p = st at hm
    generalize hst' : (s.perform c x).state p = st' at hm hp
    have hth (hne : s.state p ≠ .unused) : (s.perform c x).tab.thread p = s.tab.thread p :=
      thread_perform_of_ne hc (alloc_ne h hne)
    cases hm with
    | same =>
      rw [hth (by rcases hp with rfl | rfl <;> simp [hst])]
      exact hinv.ready p (by rwa [hst])
    | wake =>
      rw [hth (by simp [hst])]
      exact hinv.ready p (.inr hst)
    | start ha =>
      rw [ha] at hg
      obtain ⟨q, -, hk⟩ := hg
      rw [hth (by simp [hst]), (hinv.state_child hk rfl rfl).2]
      rfl
    | yield ha =>
      rw [ha] at hg
      exact absurd hg.1 hc
    | sleep chan ha =>
      rw [ha] at hg
      exact absurd hg.1 hc
    | _ => rcases hp with hp | hp <;> cases hp

theorem Inv.thread_step (h : s.fetch c ch = some x) (p : Fin nproc) :
    ((s.perform c x).tab.thread p).Ok p := by
  have hok := hinv.thread p
  by_cases hc : s.cpu c = .inProc p
  · rw [hinv.thread_self h hc]
    rw [fetch_inProc hc] at h
    rcases goes_of_fetch hok h with ⟨k, hn, hleaf, -⟩ | ⟨k, hn, hleaf, -⟩ | ⟨hn, -, hheld⟩ | ⟨hn, -, -, hne⟩ <;> rw [hn]
    · exact hok.setTop hleaf
    · exact hok.setTop hleaf
    · exact hok.push hheld
    · exact (hok.pop hne).1
  · by_cases ha : x.act = .alloc p
    · rw [thread_perform_alloc hc ha]
      exact ⟨fun hne => absurd rfl hne, by simp, by simp⟩
    · rwa [thread_perform_of_ne hc fun i hi e => ha (e ▸ hi)]

/-- A fork in progress has just taken its entry, or had it before and has not given it away. -/
theorem Inv.child_cases (h : s.fetch c ch = some x) {p np : Fin nproc}
    (hp : ((s.perform c x).tab.thread p).base.child = some np) :
    (x.act = .alloc np ∧ s.cpu c = .inProc p) ∨
      ((s.tab.thread p).base.child = some np ∧ x.act ≠ .free np ∧ x.act ≠ .start np) := by
  have hg := guard_of_fetch h
  -- whoever frees or starts the entry is the one that forked it
  have hkeep (hb : (s.tab.thread p).base.child = some np)
      (hne : s.cpu c = .inProc p → (s.tab.thread p).nested ≠ []) : x.act ≠ .free np ∧ x.act ≠ .start np := by
    have hself (q : Fin nproc) (hc : s.cpu c = .inProc q) (k : PC) (hk : (s.tab.thread q).top = k)
        (hleaf : k.leaf = false) (hchild : k.child = some np) : False := by
      obtain ⟨hbase, hnil⟩ := hinv.base_of_top hk hleaf
      obtain rfl := hinv.children p q np hb (by rw [hbase, hchild])
      exact hne hc hnil
    constructor <;> intro ha <;> rw [ha] at hg <;> obtain ⟨q, hc, hk⟩ := hg
    · exact hself q hc _ hk rfl rfl
    · exact hself q hc _ hk rfl rfl
  by_cases hc : s.cpu c = .inProc p
  · rw [hinv.thread_self h hc] at hp
    rw [fetch_inProc hc] at h
    have hset (k : PC) (hk : ((s.tab.thread p).setTop k).base.child = some np) :
        (s.tab.thread p).base.child = some np ∧ (s.tab.thread p).nested ≠ [] ∨
          k.child = some np ∧ (s.tab.thread p).top = (s.tab.thread p).base := by
      unfold KThread.setTop at hk
      split at hk
      · next hn => exact .inr ⟨hk, by simp [KThread.top, hn]⟩
      · next hn => exact .inl ⟨hk, by simp [hn]⟩
    rcases goes_of_fetch (hinv.thread p) h with ⟨k, hn, -, hact⟩ | ⟨k, hn, -, hact⟩ | ⟨hn, ha, -⟩ | ⟨hn, ha, -, -⟩ <;>
      rw [hn] at hp
    · rcases hset k hp with ⟨hb, hne⟩ | ⟨hk, htop⟩
      · exact .inr ⟨hb, hkeep hb fun _ => hne⟩
      · rcases hact.2.2.2 np hk with ha | ⟨hchild, hne⟩
        · exact .inl ⟨ha, hc⟩
        · exact .inr ⟨htop ▸ hchild, hne⟩
    · rcases hset k hp with ⟨hb, hne⟩ | ⟨hk, -⟩
      · exact .inr ⟨hb, hkeep hb fun _ => hne⟩
      · rcases hact with ⟨-, rfl⟩ | ⟨chan, lk, -, rfl⟩ | ⟨-, -, rfl⟩ <;> cases hk
    · exact .inr ⟨hp, by simp [ha]⟩
    · exact .inr ⟨hp, by simp [ha]⟩
  · by_cases ha : x.act = .alloc p
    · rw [thread_perform_alloc hc ha] at hp
      cases hp
    · rw [thread_perform_of_ne hc fun i hi e => ha (e ▸ hi)] at hp
      exact .inr ⟨hp, hkeep hp fun h => absurd h hc⟩

theorem Inv.child_step (h : s.fetch c ch = some x) (p np : Fin nproc)
    (hp : ((s.perform c x).tab.thread p).base.child = some np) :
    (s.perform c x).state np = .used ∧ (s.perform c x).tab.thread np = ⟨.forkret, []⟩ := by
  rcases hinv.child_cases h hp with ⟨ha, hc⟩ | ⟨hb, hfree, hstart⟩
  · have hg := guard_of_fetch h
    rw [ha] at hg
    obtain ⟨-, -, -, hst⟩ := hg
    have hne : s.cpu c ≠ .inProc np := fun hc' => hinv.inProc_ne_unused hc' hst
    refine ⟨?_, thread_perform_alloc hne ha⟩
    rw [state_perform, ha]
    simp [Tab.act, Tab.alloc, Tab.upd]
  · obtain ⟨hst, hth⟩ := hinv.child p np hb
    have hne : s.cpu c ≠ .inProc np := fun hc => by
      have := hst.symm.trans (hinv.state_inProc hc)
      split at this <;> cases this
    refine ⟨?_, by rw [thread_perform_of_ne hne (alloc_ne h (by simp [hst])), hth]⟩
    have hm := hinv.moves h np
    rw [hst] at hm
    generalize (s.perform c x).state np = st' at hm
    cases hm with
    | same => rfl
    | free ha => exact absurd ha hfree
    | start ha => exact absurd ha hstart

theorem Inv.children_step (h : s.fetch c ch = some x) (p p' np : Fin nproc)
    (hp : ((s.perform c x).tab.thread p).base.child = some np)
    (hp' : ((s.perform c x).tab.thread p').base.child = some np) : p = p' := by
  have hnot {q : Fin nproc} (ha : x.act = .alloc np) (hb : (s.tab.thread q).base.child = some np) : False := by
    have hg := guard_of_fetch h
    rw [ha] at hg
    obtain ⟨-, -, -, hst⟩ := hg
    exact absurd (hst.symm.trans (hinv.child q np hb).1) (by simp)
  rcases hinv.child_cases h hp with ⟨ha, hc⟩ | ⟨hb, -⟩ <;> rcases hinv.child_cases h hp' with ⟨ha', hc'⟩ | ⟨hb', -⟩
  · rw [hc] at hc'
    cases hc'
    rfl
  · exact (hnot ha hb').elim
  · exact (hnot ha' hb).elim
  · exact hinv.children p p' np hb hb'

theorem Inv.perform (h : s.fetch c ch = some x)
    (hacq : ∀ l, x.acq = some l → s.holder l = none) : (s.perform c x).Inv where
  lock := hinv.lock_step h hacq
  code := fun a => by
    by_cases ha : a = c
    · subst ha
      exact hinv.code_self h
    · exact hinv.code_other h ha
  current := hinv.current_step h
  unique := hinv.unique_step h
  running := hinv.running_step h
  ready := hinv.ready_step h
  child := hinv.child_step h
  children := hinv.children_step h
  thread := hinv.thread_step h

end

/-- A step performs what is fetched, once the lock it acquires is free. -/
theorem step_eq_some {e : Fin n × Choice} (h : s.step e = some s') :
    ∃ x, s.fetch e.1 e.2 = some x ∧ (∀ l, x.acq = some l → s.holder l = none) ∧ s' = s.perform e.1 x := by
  obtain ⟨x, hx, hs⟩ := Option.bind_eq_some_iff.mp h
  split at hs
  · next hfree =>
    cases hs
    refine ⟨x, hx, fun l hl => ?_, rfl⟩
    rw [hl] at hfree
    simpa using hfree
  · cases hs

theorem Inv.step {e : Fin n × Choice} (hinv : s.Inv) (h : s.step e = some s') : s'.Inv := by
  obtain ⟨x, hx, hacq, rfl⟩ := step_eq_some h
  exact hinv.perform hx hacq

theorem inv_run {es : List (Fin n × Choice)} (h : run step boot es = some s) : s.Inv :=
  invariant_of_step (fun _ _ _ hinv hs => hinv.step hs) inv_boot h

end Smp

/-! ## One CPU per process -/

/-- The process that a scheduler has selected and not yet switched to. -/
def Code.switching : Code → Option (Fin nproc)
  | .age b _ | .aged b _ | .swtch b => some b
  | _ => none

/-- The process that a scheduler has selected and that has not switched back to it. -/
def Code.selected : Code → Option (Fin nproc)
  | .age b _ | .aged b _ | .swtch b | .inProc b | .back b => some b
  | _ => none

namespace Smp

variable {n : Nat} {s : Smp n} {c : Fin n} {p : Fin nproc}

theorem held_switching (h : (s.cpu c).switching = some p) : .proc p ∈ s.held c := by
  cases hc : s.cpu c <;> rw [hc] at h <;> cases h <;> rw [held_code hc (by simp)] <;> simp [Code.held]

/-- A selected process is on the CPU, or the CPU is in phase 2 for it. -/
theorem Inv.selected_cases (hinv : s.Inv) (h : (s.cpu c).selected = some p) :
    (s.cpu c).proc = some p ∨ (s.state p = .runnable ∧ .wait ∈ s.held c ∧ .proc p ∈ s.held c) := by
  have hok := hinv.code c
  cases hc : s.cpu c with
  | age b i | aged b i =>
    rw [hc] at h hok
    cases h
    rw [held_code hc (by simp)]
    simp_all [Code.held, CodeOk]
  | swtch b | inProc b | back b =>
    rw [hc] at h
    exact .inl h
  | _ =>
    rw [hc] at h
    cases h

theorem Inv.selected_unique (hinv : s.Inv) {c' : Fin n} (h : (s.cpu c).selected = some p)
    (h' : (s.cpu c').selected = some p) : c = c' := by
  by_contra hne
  rcases hinv.selected_cases h with hp | ⟨hrun, hw, hl⟩ <;>
    rcases hinv.selected_cases h' with hp' | ⟨hrun', hw', hl'⟩
  · exact hne (hinv.unique c c' p hp hp')
  · exact hinv.proc_ne_of_locked hrun' hl' hne hp
  · exact hinv.proc_ne_of_locked hrun hl (Ne.symm hne) hp'
  · exact hne (hinv.lock.unique hw hw')

end Smp

/-- Each process is `c->proc` of at most one CPU, is selected by at most one until it has switched back,
is `RUNNING` only as `c->proc` of exactly one, and from its selection to the switch its lock is held. -/
theorem one_cpu_per_process (n : Nat) (es : List (Fin n × Choice)) (s : Smp n)
    (h : run Smp.step Smp.boot es = some s) :
    (∀ c c' p, s.current c = some p → s.current c' = some p → c = c') ∧
      (∀ c c' p, (s.cpu c).selected = some p → (s.cpu c').selected = some p → c = c') ∧
      (∀ p, (s.tab.procs p).state = .running → ∃! c, s.current c = some p) ∧
      ∀ c p, (s.cpu c).switching = some p → s.holder (.proc p) = some c := by
  have hinv := Smp.inv_run h
  have hone : ∀ c c' p, s.current c = some p → s.current c' = some p → c = c' := by
    intro c c' p hc hc'
    rw [hinv.current] at hc hc'
    exact hinv.unique c c' p hc hc'
  refine ⟨hone, fun c c' p => hinv.selected_unique, fun p hp => ?_, fun c p hc => ?_⟩
  · obtain ⟨c, hc⟩ := hinv.running p hp
    rw [← hinv.current] at hc
    exact ⟨c, hc, fun c' hc' => hone c' c p hc' hc⟩
  · exact (hinv.lock _ c).mpr (Smp.held_switching hc)

/-- The first of two CPUs runs `init`. -/
theorem one_cpu_per_process_init :
    ∃ s : Smp 2, run Smp.step Smp.boot (List.replicate 258 (0, .go)) = some s ∧
      (s.tab.procs initproc).state = .running ∧ ∃! c, s.current c = some initproc := by
  have hend : ((run Smp.step (Smp.boot : Smp 2) (List.replicate 258 (0, .go))).map
      fun s => (s.tab.procs initproc).state) = some .running := by
    decide +kernel
  obtain ⟨s, hrun, hst⟩ := Option.map_eq_some_iff.mp hend
  exact ⟨s, hrun, hst, (one_cpu_per_process 2 _ s hrun).2.2.1 initproc hst⟩

/-! ## No deadlock -/

/-- CPU `c` waits for lock `l`, or is about to acquire it. -/
def Smp.Wants {n : Nat} (s : Smp n) (c : Fin n) (l : Lock) : Prop :=
  ∃ ch x, s.fetch c ch = some x ∧ x.acq = some l

/-- Whoever waits for a lock while holding others holds `wait_lock`. -/
theorem Smp.Inv.wants {n : Nat} {s : Smp n} {c : Fin n} {l m : Lock} (hinv : s.Inv) (h : s.Wants c l)
    (hm : m ∈ s.held c) : m ≠ l ∧ .wait ∈ s.held c := by
  obtain ⟨ch, x, hx, hl⟩ := h
  have hok := hinv.code c
  cases hc : s.cpu c with
  | inProc p =>
    rw [held_inProc hc] at hm ⊢
    rw [fetch_inProc hc] at hx
    cases ch with
    | go | fail => exact PC.acq_held hx hl hm
    | call k =>
      simp only [Tab.fetch] at hx
      split at hx
      · rw [(ProcCall.fetch_held hx).1] at hl
        cases hl
      · cases hx
    | nest | ret => grind [Tab.fetch]
  | scan i best =>
    rw [held_code hc (by simp)] at hm ⊢
    cases best <;> grind [Smp.fetch, Code.fetch, Code.held, CodeOk]
  | _ =>
    rw [held_code hc (by simp)] at hm ⊢
    grind [Smp.fetch, Code.fetch, Code.held]

/-- There are never CPUs in a circle each holding a lock that the next one waits for. -/
theorem scheduler_no_deadlock (n : Nat) (es : List (Fin n × Choice)) (s : Smp n)
    (h : run Smp.step Smp.boot es = some s) (c : Fin n) :
    ¬Relation.TransGen (Locks.Blocks s.holder s.Wants) c c := by
  have hinv := Smp.inv_run h
  refine Locks.no_cycle .wait (fun b l m hl hm => ?_) c
  obtain ⟨hne, hw⟩ := hinv.wants hl ((hinv.lock m b).mp hm)
  exact ⟨hne, (hinv.lock .wait b).mpr hw⟩

/-- The first of two CPUs has `wait_lock`, which the second one waits for. -/
theorem scheduler_no_deadlock_two :
    ∃ s : Smp 2, run Smp.step Smp.boot [(0, .go), (0, .go)] = some s ∧
      Locks.Blocks s.holder s.Wants 0 1 ∧ ∀ c, ¬Relation.TransGen (Locks.Blocks s.holder s.Wants) c c := by
  have hend : ((run Smp.step (Smp.boot : Smp 2) [(0, .go), (0, .go)]).map
      fun s => (s.holder .wait, s.cpu 1)) = some (some 0, .top) := by
    decide +kernel
  obtain ⟨s, hrun, hs⟩ := Option.map_eq_some_iff.mp hend
  obtain ⟨hholder, hcpu⟩ := Prod.mk.injEq .. ▸ hs
  have hfetch : s.fetch 1 .go = some { acq := some .wait, next := .code (.scan 0 none) } := by
    rw [Smp.fetch, hcpu]
    rfl
  exact ⟨s, hrun, ⟨.wait, hholder, .go, _, hfetch, rfl⟩, scheduler_no_deadlock 2 _ s hrun⟩

end MiniOS
