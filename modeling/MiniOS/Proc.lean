import Mathlib.Algebra.GroupWithZero.Nat
import Mathlib.Data.Fin.Basic

/-!
# MiniOS.Proc

The process table of `kernel/proc.h` with the fields that memory management
and scheduling read or write.  A pointer to an entry of `proc[NPROC]` is its
index.
-/

namespace MiniOS

/-- `NPROC`. -/
abbrev nproc : Nat := 64

instance neZero_nproc : NeZero nproc := ⟨by decide⟩

/-- `SCHED_DEFAULT`, the priority of a new process. -/
def schedDefault : Int := 60

/-- `enum procstate`. -/
inductive ProcState
  | unused | used | sleeping | runnable | running | zombie
deriving DecidableEq, Repr

/-- `struct proc`. -/
structure Proc where
  state : ProcState
  /-- the channel slept on, or 0 -/
  chan : Nat
  killed : Bool
  xstate : BitVec 32
  pid : Nat
  parent : Option (Fin nproc)
  sz : Nat
  /-- physical address of the root page table, or 0 -/
  pagetable : Nat
  /-- physical address of the trapframe page, or 0 -/
  trapframe : Nat
  priority : Int
  waitTicks : Nat
  cpuTicks : Nat
deriving DecidableEq, Repr

/-- `struct proc proc[NPROC]`. -/
abbrev Table := Fin nproc → Proc

/-- An entry of the table before its first use. -/
def Proc.fresh : Proc where
  state := .unused
  chan := 0
  killed := false
  xstate := 0
  pid := 0
  parent := none
  sz := 0
  pagetable := 0
  trapframe := 0
  priority := 0
  waitTicks := 0
  cpuTicks := 0

/-- The first `UNUSED` entry, where `allocproc` looks for one. -/
def Table.firstUnused (t : Table) : Option (Fin nproc) :=
  (List.finRange nproc).find? fun p => (t p).state = .unused

/-- An entry that `allocproc` has found, with the trapframe it allocated or 0. -/
def Proc.taken (p : Proc) (pid trapframe : Nat) : Proc :=
  { p with pid := pid, state := .used, trapframe := trapframe }

/-- What `allocproc` leaves in the entry it hands out, given the pages it
has allocated for it. -/
def Proc.allocated (p : Proc) (pid trapframe pagetable : Nat) : Proc :=
  { p with
    state := .used, pid := pid, trapframe := trapframe, pagetable := pagetable
    priority := schedDefault, waitTicks := 0, cpuTicks := 0 }

/-- What `freeproc` leaves in an entry. -/
def Proc.freed (p : Proc) : Proc :=
  { p with
    state := .unused, chan := 0, killed := false, xstate := 0, pid := 0, parent := none
    sz := 0, pagetable := 0, trapframe := 0 }

/-- What `kfork` sets in the child's entry besides its memory: the parent's
priority, clean tick counters, and `RUNNABLE` as the last step. -/
def Proc.forked (np p : Proc) (parent : Fin nproc) : Proc :=
  { np with
    sz := p.sz, priority := p.priority, waitTicks := 0, cpuTicks := 0
    parent := some parent, state := .runnable }

section
variable (p : Proc) (pid trapframe pagetable : Nat)

@[simp] theorem Proc.taken_trapframe : (p.taken pid trapframe).trapframe = trapframe := rfl
@[simp] theorem Proc.allocated_trapframe :
    (p.allocated pid trapframe pagetable).trapframe = trapframe := rfl
@[simp] theorem Proc.allocated_pagetable :
    (p.allocated pid trapframe pagetable).pagetable = pagetable := rfl
@[simp] theorem Proc.allocated_sz : (p.allocated pid trapframe pagetable).sz = p.sz := rfl
@[simp] theorem Proc.allocated_state : (p.allocated pid trapframe pagetable).state = .used := rfl
@[simp] theorem Proc.forked_pagetable (q : Proc) (i : Fin nproc) : (p.forked q i).pagetable = p.pagetable := rfl
@[simp] theorem Proc.forked_trapframe (q : Proc) (i : Fin nproc) : (p.forked q i).trapframe = p.trapframe := rfl
@[simp] theorem Proc.forked_sz (q : Proc) (i : Fin nproc) : (p.forked q i).sz = q.sz := rfl
@[simp] theorem Proc.forked_state (q : Proc) (i : Fin nproc) : (p.forked q i).state = .runnable := rfl

end

theorem Table.firstUnused_state {t : Table} {p : Fin nproc} (h : t.firstUnused = some p) :
    (t p).state = .unused := by
  simpa using List.find?_some h

end MiniOS
