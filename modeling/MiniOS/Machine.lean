import MiniOS.Exec
import MiniOS.Compact
import MiniOS.Lib.Runs
import Mathlib.Data.Finset.Erase

/-!
# MiniOS.Machine

The kernel as a state machine.  A step is one complete operation: a system
call of a process, a load or store of user code with the fault it may take,
or the rest of the kernel taking, writing or giving back a page of its own.
An operation that the state does not allow (by a process that is not
`RUNNABLE`, on a page that is not a kernel buffer) changes nothing.
-/

namespace MiniOS

/-- The operations on memory. -/
inductive Op
  | userinit
  | fork (p : Fin nproc)
  | exec (p : Fin nproc) (file : List Byte) (argv : List (List Byte))
  | sbrk (p : Fin nproc) (n : BitVec 32) (eager : Bool)
  | load (p : Fin nproc) (va : Nat)
  | store (p : Fin nproc) (va : Nat) (b : Byte)
  | copyin (p : Fin nproc) (srcva len : Nat)
  | copyout (p : Fin nproc) (dstva : Nat) (src : List Byte)
  | exit (p : Fin nproc) (status : BitVec 32)
  | wait (p : Fin nproc) (addr : Nat)
  | compact
  | kbufAlloc
  | kbufWrite (pa : Nat) (page : Page)
  | kbufFree (pa : Nat)

/-- What an operation came to. -/
inductive Outcome
  /-- not allowed, or nothing to tell -/
  | quiet
  | forked (child : Option (Fin nproc))
  | execed (argc : Option Nat)
  | grown (old : Option Nat)
  | accessed (a : Access)
  | copiedIn (bs : Option (List Byte))
  | copiedOut (ok : Bool) (n : Nat)
  | waited (child : Option (Fin nproc)) (n : Nat)

/-- An operation of a process, if it may run. -/
def byProc (p : Fin nproc) (f : Proc → S Outcome) : S Outcome := fun s =>
  if (s.procs p).state = .runnable then f (s.procs p) s else some (.quiet, s)

section
variable [KernelImage]

/-- `kalloc` by the rest of the kernel. -/
def kbufAlloc : S Outcome := do
  let pa ← liftK kallocK
  if pa = 0 then pure .quiet
  else fun s => some (.quiet, { s with kbufs := insert pa s.kbufs })

/-- The rest of the kernel writes a page of its own. -/
def kbufWrite (pa : Nat) (page : Page) : S Outcome := fun s =>
  if pa ∈ s.kbufs then (liftK (writePage pa page) s).map fun r => (.quiet, r.2)
  else some (.quiet, s)

/-- `kfree` by the rest of the kernel. -/
def kbufFree (pa : Nat) : S Outcome := fun s =>
  if pa ∈ s.kbufs then
    (liftK (kfreeK pa) s).map fun r => (.quiet, { r.2 with kbufs := r.2.kbufs.erase pa })
  else some (.quiet, s)

/-- The code behind each operation. -/
def Op.perform : Op → S Outcome
  | .userinit => fun s =>
    if s.initproc = none then (MiniOS.userinit s).map fun r => (.quiet, r.2)
    else some (.quiet, s)
  | .fork p => byProc p fun _ => do return .forked (← kfork p)
  | .exec p file argv => byProc p fun _ => do return .execed (← kexec p file argv)
  | .sbrk p n eager => byProc p fun _ => do return .grown (← sysSbrk p n eager)
  | .load p va => byProc p fun _ => do return .accessed (← userLoad p va)
  | .store p va b => byProc p fun _ => do return .accessed (← userStore p va b)
  | .copyin p srcva len => byProc p fun proc => do
      return .copiedIn (← liftK (MiniOS.copyin proc.sz proc.pagetable srcva len))
  | .copyout p dstva src => byProc p fun proc => do
      let r ← liftK (MiniOS.copyout proc.sz proc.pagetable dstva src)
      return .copiedOut r.1 r.2
  | .exit p status => byProc p fun _ => do kexit p status; return .quiet
  | .wait p addr => byProc p fun _ => do
      let r ← kwait p addr
      return .waited r.1 r.2
  | .compact => do liftK compactMemory; return .quiet
  | .kbufAlloc => MiniOS.kbufAlloc
  | .kbufWrite pa page => MiniOS.kbufWrite pa page
  | .kbufFree pa => MiniOS.kbufFree pa

/-- One operation; `none` is a `panic`. -/
def Sys.step (s : Sys) (op : Op) : Option Sys := (op.perform s).map Prod.snd

end

/-! ## boot -/

/-- The process table after `procinit`. -/
def freshTable : Table := fun _ => Proc.fresh

/-- The kernel once `kinit` has run. -/
def booted (k : Kmem) : Sys where
  kmem := k
  procs := freshTable
  initproc := none
  nextpid := 1
  kbufs := ∅

/-- The states the kernel can be in after `kinit`. -/
def Reachable [KernelImage] (s : Sys) : Prop :=
  ∃ mem k ops, kinit mem = some k ∧ Runs.run Sys.step (booted k) ops = some s

end MiniOS
