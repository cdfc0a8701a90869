import MiniOS.Sched
import MiniOS.Lib.Locks

/-!
# MiniOS.Smp

The process table under `wait_lock` and the `p->lock`s, with any number of
CPUs.  Each CPU is somewhere in `scheduler()` or runs the kernel code of a
process; a step of it goes from one `acquire` or `release` to the next.  The
other locks of the kernel are not part of the state: they could only delay a
CPU.

`Code.fetch` and `PC.fetch` say what a CPU does next at each point of
`kernel/proc.c`: the lock it acquires first, if any, what it does to the table,
the lock it then releases, and where it goes on.  `Smp.step` performs that.
-/

namespace MiniOS

open Function (update)

/-- The locks. -/
inductive Lock
  /-- `wait_lock` -/
  | wait
  /-- `proc[i].lock` -/
  | proc (i : Fin nproc)
deriving DecidableEq, Repr

/-- `initproc`: `userinit` takes the first entry. -/
def initproc : Fin nproc := 0

/-- The channel that is the address of an entry; 0 is the null pointer. -/
def procChan (p : Fin nproc) : Nat := p + 1

/-- The channel that is another address. -/
def otherChan (a : Nat) : Nat := nproc + 1 + a

/-- The channel `p->parent`. -/
def parentChan : Option (Fin nproc) → Nat
  | none => 0
  | some p => procChan p

/-! ## Where the kernel code of a process can be -/

/-- Where `wakeup` returns to. -/
inductive WakeRet
  /-- some other code -/
  | done
  /-- the loop of `reparent` in `kexit`, at entry `i` -/
  | reparent (status : BitVec 32) (i : Nat)
  /-- `kexit`, after waking the parent -/
  | parent (status : BitVec 32)
deriving DecidableEq, Repr

/-- The lock given to `sleep`: `wait_lock` is that of `kwait`. -/
inductive SleepLock
  | other
  | wait
deriving DecidableEq, Repr

/-- What is done with an entry under its lock, before the lock is released. -/
inductive Job
  | wake (chan : Nat) (k : WakeRet)
  | kill (pid : Int)
  | setkilled
  | killed
  /-- `killed(p)` of `kwait` -/
  | waitKilled
  /-- the end of `kfork`: the child becomes `RUNNABLE` -/
  | start
  /-- `kwait` looks at a child -/
  | reap
deriving DecidableEq, Repr

/-- A point in the kernel code of a process. -/
inductive PC
  /-- user code, or kernel code that holds none of the locks -/
  | idle
  | forkret
  /-- `acquire(&proc[i].lock)` and the job after it -/
  | want (i : Fin nproc) (job : Job)
  | inside (i : Fin nproc) (job : Job)
  | yieldAcq
  | yieldSw
  /-- `yield`, after `sched()` -/
  | yielded
  | sleepAcq (chan : Nat) (lk : SleepLock)
  | sleepRel (chan : Nat) (lk : SleepLock)
  | sleepSw (chan : Nat) (lk : SleepLock)
  /-- `sleep`, after `sched()` -/
  | sleepTidy (lk : SleepLock)
  | sleepLk (lk : SleepLock)
  | wakeLoop (chan : Nat) (i : Nat) (k : WakeRet)
  | killLoop (pid : Int) (i : Nat)
  | allocLoop (i : Nat)
  | allocIn (i : Fin nproc)
  /-- `allocproc` has taken entry `np`; the rest of it, and `kfork` up to the release of `np->lock` -/
  | setup (np : Fin nproc)
  | forkWait (np : Fin nproc)
  | forkParent (np : Fin nproc)
  /-- `kexit` closes its files -/
  | closing (status : BitVec 32) (fd : Nat)
  | exitAcq (status : BitVec 32)
  | reparent (status : BitVec 32) (i : Nat)
  | exitOwn (status : BitVec 32)
  | exitZombie (status : BitVec 32)
  | exitSw
  | dead
  | waitAcq
  | waitScan (i : Nat) (havekids : Bool)
  | waitRet
deriving DecidableEq, Repr

/-- The kernel code of a process: where it is, and, on top of that, the code that an interrupt or a call
has entered, the innermost first. -/
structure KThread where
  base : PC
  nested : List PC
deriving DecidableEq, Repr

namespace KThread

/-- The point of the innermost code. -/
def top (t : KThread) : PC := t.nested.headD t.base

def setTop (t : KThread) (k : PC) : KThread :=
  match t.nested with
  | [] => { t with base := k }
  | _ :: ks => { t with nested := k :: ks }

def push (t : KThread) : KThread := { t with nested := .idle :: t.nested }

def pop (t : KThread) : KThread := { t with nested := t.nested.tail }

end KThread

/-- What the caller of a job's loop holds. -/
def Job.outer : Job → List Lock
  | .wake _ .done => []
  | .wake _ _ => [.wait]
  | .waitKilled | .reap => [.wait]
  | .kill _ | .setkilled | .killed | .start => []

def SleepLock.locks : SleepLock → List Lock
  | .other => []
  | .wait => [.wait]

/-- The locks that are held at a point of the code of `me`. -/
def PC.held (me : Fin nproc) : PC → List Lock
  | .idle | .yieldAcq | .sleepLk _ | .killLoop .. | .allocLoop _ | .forkWait _ | .closing .. | .exitAcq _
  | .dead | .waitAcq => []
  | .forkret | .yieldSw | .yielded | .sleepSw .. | .sleepTidy _ | .exitSw => [.proc me]
  | .want _ job => job.outer
  | .inside i job => .proc i :: job.outer
  | .sleepAcq _ lk => lk.locks
  | .sleepRel _ lk => .proc me :: lk.locks
  | .wakeLoop _ _ .done => []
  | .wakeLoop .. => [.wait]
  | .allocIn i | .setup i => [.proc i]
  | .forkParent _ | .reparent .. | .exitOwn _ | .waitScan .. | .waitRet => [.wait]
  | .exitZombie _ => [.proc me, .wait]

/-- A point of `scheduler()`. -/
inductive Code
  | top
  /-- phase 1 at entry `i`, with the best entry so far -/
  | scan (i : Nat) (best : Option (Fin nproc))
  | exam (i : Fin nproc) (best : Option (Fin nproc))
  /-- phase 2 at entry `i` -/
  | age (b : Fin nproc) (i : Nat)
  | aged (b : Fin nproc) (i : Fin nproc)
  | swtch (b : Fin nproc)
  /-- in the kernel code of a process -/
  | inProc (p : Fin nproc)
  /-- after `swtch` -/
  | back (b : Fin nproc)
  | window
  | reset (i : Nat)
  | resetIn (i : Fin nproc)
  | idleRel
  /-- the idle branch, which takes other locks only -/
  | wfi
  /-- an interrupt handler that calls `wakeup` -/
  | intr (chan : Nat) (i : Nat)
  | intrIn (chan : Nat) (i : Fin nproc)
deriving DecidableEq, Repr

namespace Code

/-- The locks that are held at a point of `scheduler()`. -/
def held : Code → List Lock
  | .top | .window | .reset _ | .wfi | .intr .. | .inProc _ => []
  | .scan _ best => .wait :: (best.map Lock.proc).toList
  | .exam i best => .proc i :: .wait :: (best.map Lock.proc).toList
  | .age b _ => [.wait, .proc b]
  | .aged b i => [.proc i, .wait, .proc b]
  | .swtch b | .back b => [.proc b]
  | .resetIn i | .intrIn _ i => [.proc i]
  | .idleRel => [.wait]

/-- The process that a CPU has switched to, or is switching to or from. -/
def proc : Code → Option (Fin nproc)
  | .swtch b | .inProc b | .back b => some b
  | _ => none

end Code

/-! ## The table -/

/-- A process that became `ZOMBIE`, told apart from others by the number of its allocation. -/
structure Exited where
  birth : Nat
  pid : Nat
  xstate : BitVec 32
deriving DecidableEq, Repr

/-- What `kwait` of `caller` returned, and the `parent` of the entry that it freed. -/
structure Reaped where
  exited : Exited
  parent : Option (Fin nproc)
  caller : Fin nproc
deriving DecidableEq, Repr

/-- The process table, with the open files and current directories, and what happened so far. -/
structure Tab where
  procs : Table
  ofile : Fin nproc → Nat → Option Nat
  cwd : Fin nproc → Option Nat
  /-- `p->context` and the kernel stack -/
  thread : Fin nproc → KThread
  nextpid : Nat
  windowTick : Nat
  /-- the number of the last allocation of an entry -/
  birth : Fin nproc → Nat
  births : Nat
  /-- since its allocation, `kkill` found the entry by its pid, or `setkilled` was called for it -/
  named : Fin nproc → Bool
  exits : List Exited
  reaps : List Reaped

/-- `NOFILE`, as used by `kexit`. -/
def nofiles : Nat := 16

/-- What a step does to the table. -/
inductive Act
  | none
  -- scheduler
  | age (i : Fin nproc)
  | dispatch (b : Fin nproc)
  | account (b : Fin nproc)
  | windowReset
  | clearTicks (i : Fin nproc)
  -- yield, sleep, wakeup, kkill, setkilled
  | tick (p : Fin nproc)
  | yield (p : Fin nproc)
  | sleep (p : Fin nproc) (chan : Nat)
  | tidy (p : Fin nproc)
  | wake (i : Fin nproc) (chan : Nat)
  | kill (i : Fin nproc) (pid : Int)
  | setkilled (p : Fin nproc)
  -- kfork
  | alloc (i : Fin nproc)
  | free (np : Fin nproc)
  | copy (p np : Fin nproc)
  | adopt (i parent : Fin nproc)
  | start (np : Fin nproc)
  -- open, close, chdir; kexit
  | files (p : Fin nproc) (ofile : Nat → Option Nat) (cwd : Option Nat)
  | close (p : Fin nproc) (fd : Nat)
  | dropCwd (p : Fin nproc)
  | zombie (p : Fin nproc) (status : BitVec 32)
  -- kwait
  | reap (p i : Fin nproc)

/-- The accounting of `scheduler()` for a process that has switched back to it. -/
def Proc.account (p : Proc) : Proc :=
  let cpuTicks := p.cpuTicks + 1
  let priority :=
    if schedTcpuMax < cpuTicks then
      if p.priority - schedBeta < schedMin then schedMin else p.priority - schedBeta
    else p.priority
  { p with cpuTicks := cpuTicks, priority := priority }

/-- What `wakeup(chan)` does to an entry. -/
def Proc.wake (p : Proc) (chan : Nat) : Proc :=
  if p.state = .sleeping ∧ p.chan = chan then { p with state := .runnable } else p

/-- What `kkill` does to the entry with the pid. -/
def Proc.kill (p : Proc) : Proc :=
  let p := { p with killed := true }
  if p.state = .sleeping then { p with state := .runnable } else p

/-- What `kfork` copies to the child's entry. -/
def Proc.inherit (np p : Proc) : Proc :=
  { np with sz := p.sz, priority := p.priority, waitTicks := 0, cpuTicks := 0 }

namespace Tab

/-- An entry changes. -/
def upd (t : Tab) (i : Fin nproc) (f : Proc → Proc) : Tab :=
  { t with procs := update t.procs i (f (t.procs i)) }

/-- What is known of an entry that is `ZOMBIE`. -/
def exited (t : Tab) (i : Fin nproc) : Exited := ⟨t.birth i, (t.procs i).pid, (t.procs i).xstate⟩

/-- `allocproc` finds entry `i`. -/
def alloc (t : Tab) (i : Fin nproc) : Tab :=
  { t.upd i fun q => { q with pid := t.nextpid, state := .used } with
    nextpid := t.nextpid + 1
    thread := update t.thread i ⟨.forkret, []⟩
    birth := update t.birth i t.births
    births := t.births + 1
    named := update t.named i false }

/-- `kfork` copies its files to the child. -/
def copy (t : Tab) (p np : Fin nproc) : Tab :=
  let files := fun fd =>
    if fd < nofiles ∧ (t.ofile p fd).isSome then t.ofile p fd else t.ofile np fd
  { t.upd np fun q => q.inherit (t.procs p) with
    ofile := update t.ofile np files
    cwd := update t.cwd np (t.cwd p) }

def kill (t : Tab) (i : Fin nproc) (pid : Int) : Tab :=
  if ((t.procs i).pid : Int) = pid then
    { t.upd i Proc.kill with named := update t.named i true }
  else t

def zombie (t : Tab) (p : Fin nproc) (status : BitVec 32) : Tab :=
  { t.upd p fun q => { q with xstate := status, state := .zombie } with
    exits := t.exits ++ [⟨t.birth p, (t.procs p).pid, status⟩] }

/-- `kwait` of `p` frees entry `i` and returns. -/
def reap (t : Tab) (p i : Fin nproc) : Tab :=
  { t.upd i Proc.freed with reaps := t.reaps ++ [⟨t.exited i, (t.procs i).parent, p⟩] }

/-- The table after a step. -/
def act (t : Tab) : Act → Tab
  | .none => t
  | .age i => t.upd i Proc.age
  | .dispatch b => t.upd b fun q => { q with state := .running, waitTicks := 0 }
  | .account b => { t.upd b Proc.account with windowTick := t.windowTick + 1 }
  | .windowReset => { t with windowTick := 0 }
  | .clearTicks i => t.upd i fun q => { q with cpuTicks := 0 }
  | .tick p => t.upd p fun q => { q with cpuTicks := q.cpuTicks + 1 }
  | .yield p => t.upd p fun q => { q with state := .runnable }
  | .sleep p chan => t.upd p fun q => { q with chan := chan, state := .sleeping }
  | .tidy p => t.upd p fun q => { q with chan := 0 }
  | .wake i chan => t.upd i fun q => q.wake chan
  | .kill i pid => t.kill i pid
  | .setkilled p =>
    { t.upd p fun q => { q with killed := true } with named := update t.named p true }
  | .alloc i => t.alloc i
  | .free np => t.upd np Proc.freed
  | .copy p np => t.copy p np
  | .adopt i parent => t.upd i fun q => { q with parent := some parent }
  | .start np => t.upd np fun q => { q with state := .runnable }
  | .files p ofile cwd =>
    { t with ofile := update t.ofile p ofile, cwd := update t.cwd p cwd }
  | .close p fd => { t with ofile := update t.ofile p (update (t.ofile p) fd none) }
  | .dropCwd p => { t with cwd := update t.cwd p none }
  | .zombie p status => t.zombie p status
  | .reap p i => t.reap p i

end Tab

/-- The code that a CPU is in changes by `f`, if it is that of a process. -/
def Tab.rethread (t : Tab) (f : KThread → KThread) : Code → Tab
  | .inProc p => { t with thread := update t.thread p (f (t.thread p)) }
  | _ => t

/-! ## What a CPU does next -/

/-- Where a CPU goes on. -/
inductive Next
  /-- at another point of the scheduler -/
  | code (k : Code)
  /-- `c->proc = b`, before the switch to `b` -/
  | run (b : Fin nproc)
  | enter (b : Fin nproc)
  /-- `c->proc = 0`, after the switch back -/
  | leave
  /-- at another point of the process -/
  | pc (k : PC)
  /-- `swtch` to the scheduler; the process goes on at `k` when it is switched to again -/
  | swtch (k : PC)
  /-- in code that is entered on top, or left -/
  | push
  | pop

namespace Next

/-- The kernel code of the process that the CPU is in. -/
def toThread : Next → KThread → KThread
  | .pc k, t | .swtch k, t => t.setTop k
  | .push, t => t.push
  | .pop, t => t.pop
  | _, t => t

/-- The point of the scheduler. -/
def toCode : Next → Code → Code
  | .code k, _ => k
  | .run b, _ => .swtch b
  | .enter b, _ => .inProc b
  | .leave, _ => .window
  | .swtch _, .inProc p => .back p
  | _, k => k

/-- `c->proc`. -/
def toCurrent : Next → Option (Fin nproc) → Option (Fin nproc)
  | .run b, _ => some b
  | .leave, _ => none
  | _, p => p

end Next

/-- One step: acquire, act on the table, release, go on. -/
structure Instr where
  acq : Option Lock := none
  act : Act := .none
  rel : Option Lock := none
  next : Next

/-- The calls that the code of a process makes. -/
inductive ProcCall
  | yield (timer : Bool)
  | sleep (a : Nat)
  | wakeup (a : Nat)
  | kill (pid : Int)
  | setkilled
  | killed
  | fork
  | exit (status : BitVec 32)
  | wait
  /-- system calls that change the open files or the current directory -/
  | files (ofile : Nat → Option Nat) (cwd : Option Nat)

/-- What is not determined by the state. -/
inductive Choice
  | go
  /-- an allocation or a copy to user memory fails -/
  | fail
  | call (k : ProcCall)
  /-- an interrupt, or a call from code that holds none of the locks -/
  | nest
  | ret

/-- The address that an interrupt handler wakes up, if there is an interrupt. -/
def Choice.intr : Choice → Option Nat
  | .call (.wakeup a) => some a
  | _ => none

/-- The call `k` by `me`; code that was entered by an interrupt does not fork, exit, wait or change
files. -/
def ProcCall.fetch (me : Fin nproc) (nested : Bool) : ProcCall → Option Instr
  | .yield timer => some { act := if timer then .tick me else .none, next := .pc .yieldAcq }
  | .sleep a => some { next := .pc (.sleepAcq (otherChan a) .other) }
  | .wakeup a => some { next := .pc (.wakeLoop (otherChan a) 0 .done) }
  | .kill pid => some { next := .pc (.killLoop pid 0) }
  | .setkilled => some { next := .pc (.want me .setkilled) }
  | .killed => some { next := .pc (.want me .killed) }
  | .fork => if nested then none else some { next := .pc (.allocLoop 0) }
  | .exit status =>
    -- `panic("init exiting")`
    if nested ∨ me = initproc then none else some { next := .pc (.closing status 0) }
  | .wait => if nested then none else some { next := .pc .waitAcq }
  | .files ofile cwd => if nested then none else some { act := .files me ofile cwd, next := .pc .idle }

/-- The body of a job of `me` on entry `i`, which ends with the release of its lock. -/
def Job.fetch (t : Tab) (me i : Fin nproc) (ok : Bool) : Job → Instr
  | .wake chan k =>
    { act := .wake i chan, rel := some (.proc i), next := .pc (.wakeLoop chan (i + 1) k) }
  | .kill pid =>
    { act := .kill i pid, rel := some (.proc i)
      next := .pc (if ((t.procs i).pid : Int) = pid then .idle else .killLoop pid (i + 1)) }
  | .setkilled => { act := .setkilled me, rel := some (.proc i), next := .pc .idle }
  | .killed => { rel := some (.proc i), next := .pc .idle }
  | .waitKilled =>
    { rel := some (.proc i)
      next := .pc (if (t.procs me).killed then .waitRet else .sleepAcq (procChan me) .wait) }
  | .start => { act := .start i, rel := some (.proc i), next := .pc .idle }
  | .reap =>
    if (t.procs i).state = .zombie then
      -- a failed `copyout` returns -1 and leaves the child
      { act := if ok then .reap me i else .none, rel := some (.proc i), next := .pc .waitRet }
    else { rel := some (.proc i), next := .pc (.waitScan (i + 1) true) }

/-- What the kernel code of `me` does at each point. -/
def PC.fetch (t : Tab) (me : Fin nproc) (ok : Bool) : PC → Option Instr
  | .idle | .dead => none
  | .forkret | .yielded => some { rel := some (.proc me), next := .pc .idle }
  | .want i job => some { acq := some (.proc i), next := .pc (.inside i job) }
  | .inside i job => some (job.fetch t me i ok)
  | .yieldAcq => some { acq := some (.proc me), next := .pc .yieldSw }
  | .yieldSw => some { act := .yield me, next := .swtch .yielded }
  | .sleepAcq chan lk => some { acq := some (.proc me), next := .pc (.sleepRel chan lk) }
  | .sleepRel chan lk => some { rel := lk.locks.head?, next := .pc (.sleepSw chan lk) }
  | .sleepSw chan lk => some { act := .sleep me chan, next := .swtch (.sleepTidy lk) }
  | .sleepTidy lk => some { act := .tidy me, rel := some (.proc me), next := .pc (.sleepLk lk) }
  | .sleepLk .other => some { next := .pc .idle }
  | .sleepLk .wait => some { acq := some .wait, next := .pc (.waitScan 0 false) }
  | .wakeLoop chan i k =>
    if h : i < nproc then
      -- `if(p != myproc())`
      if i = me then some { next := .pc (.wakeLoop chan (i + 1) k) }
      else some { next := .pc (.want ⟨i, h⟩ (.wake chan k)) }
    else
      match k with
      | .done => some { next := .pc .idle }
      | .reparent status j => some { next := .pc (.reparent status j) }
      | .parent status => some { next := .pc (.exitOwn status) }
  | .killLoop pid i =>
    if h : i < nproc then some { next := .pc (.want ⟨i, h⟩ (.kill pid)) } else some { next := .pc .idle }
  | .allocLoop i =>
    if h : i < nproc then some { acq := some (.proc ⟨i, h⟩), next := .pc (.allocIn ⟨i, h⟩) }
    else some { next := .pc .idle }
  | .allocIn i =>
    if (t.procs i).state = .unused then some { act := .alloc i, next := .pc (.setup i) }
    else some { rel := some (.proc i), next := .pc (.allocLoop (i + 1)) }
  | .setup np =>
    if ok then some { act := .copy me np, rel := some (.proc np), next := .pc (.forkWait np) }
    else some { act := .free np, rel := some (.proc np), next := .pc .idle }
  | .forkWait np => some { acq := some .wait, next := .pc (.forkParent np) }
  | .forkParent np => some { act := .adopt np me, rel := some .wait, next := .pc (.want np .start) }
  | .closing status fd =>
    if fd < nofiles then some { act := .close me fd, next := .pc (.closing status (fd + 1)) }
    else some { act := .dropCwd me, next := .pc (.exitAcq status) }
  | .exitAcq status => some { acq := some .wait, next := .pc (.reparent status 0) }
  | .reparent status i =>
    if h : i < nproc then
      if (t.procs ⟨i, h⟩).parent = some me then
        some { act := .adopt ⟨i, h⟩ initproc
               next := .pc (.wakeLoop (procChan initproc) 0 (.reparent status (i + 1))) }
      else some { next := .pc (.reparent status (i + 1)) }
    else some { next := .pc (.wakeLoop (parentChan (t.procs me).parent) 0 (.parent status)) }
  | .exitOwn status => some { acq := some (.proc me), next := .pc (.exitZombie status) }
  | .exitZombie status => some { act := .zombie me status, rel := some .wait, next := .pc .exitSw }
  | .exitSw => some { next := .swtch .dead }
  | .waitAcq => some { acq := some .wait, next := .pc (.waitScan 0 false) }
  | .waitScan i havekids =>
    if h : i < nproc then
      if (t.procs ⟨i, h⟩).parent = some me then some { next := .pc (.want ⟨i, h⟩ .reap) }
      else some { next := .pc (.waitScan (i + 1) havekids) }
    else if havekids then some { next := .pc (.want me .waitKilled) }
    else some { next := .pc .waitRet }
  | .waitRet => some { rel := some .wait, next := .pc .idle }

/-- What the process `p` does: its code goes on, or it makes a call, or an interrupt comes or ends. -/
def Tab.fetch (t : Tab) (p : Fin nproc) : Choice → Option Instr
  | .go => (t.thread p).top.fetch t p true
  | .fail => (t.thread p).top.fetch t p false
  | .call k => if (t.thread p).top = .idle then k.fetch p (!(t.thread p).nested.isEmpty) else none
  | .nest => if (t.thread p).top.held p = [] then some { next := .push } else none
  | .ret =>
    if (t.thread p).top = .idle ∧ (t.thread p).nested ≠ [] then some { next := .pop } else none

/-- What `scheduler()` does at each point. -/
def Code.fetch (t : Tab) (ch : Choice) : Code → Option Instr
  | .top =>
    match ch.intr with
    | some a => some { next := .code (.intr (otherChan a) 0) }
    | none => some { acq := some .wait, next := .code (.scan 0 none) }
  | .scan i best =>
    if h : i < nproc then some { acq := some (.proc ⟨i, h⟩), next := .code (.exam ⟨i, h⟩ best) }
    else
      match best with
      | none => some { next := .code .idleRel }
      | some b => some { next := .code (.age b 0) }
  | .exam i best =>
    if (t.procs i).state = .runnable then
      -- starvation priority: immediate selection
      if schedWmax ≤ (t.procs i).waitTicks then
        some { rel := best.map .proc, next := .code (.age i 0) }
      else if best.all fun b => (t.procs b).priority < (t.procs i).priority then
        some { rel := best.map .proc, next := .code (.scan (i + 1) (some i)) }
      else some { rel := some (.proc i), next := .code (.scan (i + 1) best) }
    else some { rel := some (.proc i), next := .code (.scan (i + 1) best) }
  | .age b i =>
    if h : i < nproc then
      if i = b then some { next := .code (.age b (i + 1)) }
      else some { acq := some (.proc ⟨i, h⟩), next := .code (.aged b ⟨i, h⟩) }
    else some { act := .dispatch b, rel := some .wait, next := .run b }
  | .aged b i => some { act := .age i, rel := some (.proc i), next := .code (.age b (i + 1)) }
  | .swtch b => some { next := .enter b }
  | .inProc p => t.fetch p ch
  | .back b => some { act := .account b, rel := some (.proc b), next := .leave }
  | .window =>
    if schedW ≤ t.windowTick then some { act := .windowReset, next := .code (.reset 0) }
    else some { next := .code .top }
  | .reset i =>
    if h : i < nproc then some { acq := some (.proc ⟨i, h⟩), next := .code (.resetIn ⟨i, h⟩) }
    else some { next := .code .top }
  | .resetIn i => some { act := .clearTicks i, rel := some (.proc i), next := .code (.reset (i + 1)) }
  | .idleRel => some { rel := some .wait, next := .code .wfi }
  | .wfi => some { next := .code .top }
  | .intr chan i =>
    if h : i < nproc then some { acq := some (.proc ⟨i, h⟩), next := .code (.intrIn chan ⟨i, h⟩) }
    else some { next := .code .top }
  | .intrIn chan i =>
    some { act := .wake i chan, rel := some (.proc i), next := .code (.intr chan (i + 1)) }

/-! ## The machine -/

/-- `n` CPUs. -/
structure Smp (n : Nat) where
  tab : Tab
  cpu : Fin n → Code
  /-- `c->proc` -/
  current : Fin n → Option (Fin nproc)
  /-- the CPU that holds a lock -/
  holder : Lock → Option (Fin n)

namespace Smp

variable {n : Nat}

def fetch (s : Smp n) (c : Fin n) (ch : Choice) : Option Instr := (s.cpu c).fetch s.tab ch

/-- What CPU `c` does, once it has the lock. -/
def perform (s : Smp n) (c : Fin n) (x : Instr) : Smp n where
  tab := (s.tab.act x.act).rethread x.next.toThread (s.cpu c)
  cpu := update s.cpu c (x.next.toCode (s.cpu c))
  current := update s.current c (x.next.toCurrent (s.current c))
  holder := Locks.relock s.holder c x.acq x.rel

/-- A step of CPU `c`: it waits while the lock it acquires is held. -/
def step (s : Smp n) (e : Fin n × Choice) : Option (Smp n) :=
  (s.fetch e.1 e.2).bind fun x =>
    if x.acq.all fun l => (s.holder l).isNone then some (s.perform e.1 x) else none

/-- After `userinit`, with all CPUs in `scheduler()`. -/
def boot : Smp n where
  tab :=
    { procs := fun i =>
        if i = initproc then { Proc.fresh with state := .runnable, pid := 1, priority := schedDefault }
        else Proc.fresh
      ofile := fun _ _ => none
      cwd := fun i => if i = initproc then some 0 else none
      thread := fun _ => ⟨.forkret, []⟩
      nextpid := 2
      windowTick := 0
      birth := fun _ => 0
      births := 1
      named := fun _ => false
      exits := []
      reaps := [] }
  cpu := fun _ => .top
  current := fun _ => none
  holder := fun _ => none

/-- The locks that CPU `c` holds where it is. -/
def held (s : Smp n) (c : Fin n) : List Lock :=
  match s.cpu c with
  | .inProc p => (s.tab.thread p).top.held p
  | k => k.held

end Smp

end MiniOS
