import MiniOS.Vm
import MiniOS.Proc
import Mathlib.Data.Finset.Insert

/-!
# MiniOS.Kernel

The process life cycle of `kernel/proc.c` with its memory: `allocproc`,
`freeproc`, `growproc`, `kfork`, `kexit`, `kwait`, the `sbrk` system call and
the loads and stores of user code with the page faults they take.

A function works on the state of the kernel in `S`; `none` is a `panic`.  A
process is its index in the table, and a function of the current process takes
that index.  Pages that the rest of the kernel has allocated (its page table
and stacks, pipes, disk rings, buffers of system calls) are in `kbufs`.
-/

namespace MiniOS

/-- The state of the kernel. -/
structure Sys where
  kmem : Kmem
  procs : Table
  initproc : Option (Fin nproc)
  nextpid : Nat
  kbufs : Finset Nat

/-- Kernel code. -/
abbrev S := StateT Sys Option

/-- Memory management as part of the kernel. -/
def liftK {α : Type} (f : K α) : S α := fun s =>
  (f s.kmem).map fun r => (r.1, { s with kmem := r.2 })

def getProc (p : Fin nproc) : S Proc := fun s => some (s.procs p, s)

def setProc (p : Fin nproc) (proc : Proc) : S Unit := fun s =>
  some ((), { s with procs := Function.update s.procs p proc })

def allocpid : S Nat := fun s => some (s.nextpid, { s with nextpid := s.nextpid + 1 })

/-! ## trapframes -/

/-- Words of `struct trapframe`. -/
def tfEpc : Fin 512 := 3
def tfSp : Fin 512 := 6
def tfA0 : Fin 512 := 14
def tfA1 : Fin 512 := 15

/-- The size of `struct trapframe` in words. -/
def trapframeWords : Nat := 36

/-- `*(np->trapframe) = *(p->trapframe)`, on the pages that hold them. -/
def copyTrapframe (old new : Page) : Page := fun i => if i.val < trapframeWords then old i else new i

section
variable [KernelImage]

/-! ## page tables of processes -/

/-- `proc_pagetable`: a page table with the trampoline and the trapframe, or 0. -/
def procPagetable (trapframe : Nat) : K Nat := do
  let pagetable ← uvmcreate
  if pagetable = 0 then pure 0
  else do
    let ok ← mappages pagetable trampolineVa pgSize trampoline (pteR ||| pteX)
    if !ok then do
      uvmfree pagetable 0
      pure 0
    else do
      let ok ← mappages pagetable trapframeVa pgSize trapframe (pteR ||| pteW)
      if !ok then do
        uvmunmap pagetable trampolineVa 1 false
        uvmfree pagetable 0
        pure 0
      else pure pagetable

/-- `proc_freepagetable`. -/
def procFreepagetable (pagetable sz : Nat) : K Unit := do
  uvmunmap pagetable trampolineVa 1 false
  uvmunmap pagetable trapframeVa 1 false
  uvmfree pagetable sz

/-- `freeproc`. -/
def freeproc (p : Fin nproc) : S Unit := do
  let proc ← getProc p
  liftK (if proc.trapframe ≠ 0 then kfreeK proc.trapframe else pure ())
  liftK (if proc.pagetable ≠ 0 then procFreepagetable proc.pagetable proc.sz else pure ())
  setProc p proc.freed

/-- `allocproc` once it has found the entry `p`. -/
def allocprocAt (p : Fin nproc) : S (Option (Fin nproc)) := do
  let proc ← getProc p
  let pid ← allocpid
  let trapframe ← liftK kallocK
  setProc p (proc.taken pid trapframe)
  if trapframe = 0 then do
    freeproc p
    pure none
  else do
    let pagetable ← liftK (procPagetable trapframe)
    if pagetable = 0 then do
      freeproc p
      pure none
    else do
      setProc p (proc.allocated pid trapframe pagetable)
      pure (some p)

/-- `allocproc`: an entry of the table ready to run in the kernel, or none. -/
def allocproc : S (Option (Fin nproc)) := fun s =>
  match s.procs.firstUnused with
  | none => some (none, s)
  | some p => allocprocAt p s

/-- `userinit`; an `allocproc` that fails is dereferenced. -/
def userinit : S Unit := do
  match ← allocproc with
  | none => fun _ => none
  | some p =>
    let proc ← getProc p
    setProc p { proc with state := .runnable }
    fun s => some ((), { s with initproc := some p })

/-! ## growing and shrinking -/

/-- `growproc(n)` of process `p`. -/
def growproc (p : Fin nproc) (n : Int) : S Bool := do
  let proc ← getProc p
  if 0 < n then
    if trapframeVa < proc.sz + n.toNat then pure false
    else do
      let sz ← liftK (uvmalloc proc.pagetable proc.sz (proc.sz + n.toNat) pteW)
      if sz = 0 then pure false
      else do
        setProc p { proc with sz := sz }
        pure true
  else if n < 0 then do
    -- `sz + n` wraps around below 0
    let sz ← liftK (uvmdealloc proc.pagetable proc.sz ((proc.sz + n) % 2 ^ 64).toNat)
    setProc p { proc with sz := sz }
    pure true
  else pure true

/-- `sys_sbrk`: the old size, or none. -/
def sysSbrk (p : Fin nproc) (n : BitVec 32) (eager : Bool) : S (Option Nat) := do
  let proc ← getProc p
  let addr := proc.sz
  if eager ∨ n.toInt < 0 then do
    if ← growproc p n.toInt then pure (some addr) else pure none
  else
    -- lazily: only the size grows
    let newsz := (addr + n.toNat) % 2 ^ 64
    if newsz < addr then pure none
    else if trapframeVa < newsz then pure none
    else do
      setProc p { proc with sz := newsz }
      pure (some addr)

/-! ## fork, exit, wait -/

/-- `kfork` by process `p`: the child, or none. -/
def kfork (p : Fin nproc) : S (Option (Fin nproc)) := do
  match ← allocproc with
  | none => pure none
  | some np => do
      let proc ← getProc p
      let nproc ← getProc np
      if ← liftK (uvmcopy proc.pagetable nproc.pagetable proc.sz) then do
        -- the child's registers are the parent's, and it returns 0
        let old ← liftK (readPage proc.trapframe)
        let new ← liftK (readPage nproc.trapframe)
        liftK (writePage nproc.trapframe (copyTrapframe old new))
        liftK (writePte ⟨nproc.trapframe, tfA0⟩ 0)
        setProc np (nproc.forked proc p)
        pure (some np)
      else do
        freeproc np
        pure none

/-- `reparent`: children of `p` go to init. -/
def reparent (t : Table) (p : Fin nproc) (initproc : Option (Fin nproc)) : Table := fun pp =>
  if (t pp).parent = some p then { t pp with parent := initproc } else t pp

/-- `kexit(status)` by process `p`; init must not exit. -/
def kexit (p : Fin nproc) (status : BitVec 32) : S Unit := fun s =>
  if s.initproc = some p then none
  else
    let procs := reparent s.procs p s.initproc
    let proc := { procs p with xstate := status, state := .zombie }
    some ((), { s with procs := Function.update procs p proc })

/-- The first child of `p` in the table that has exited. -/
def zombieChild (t : Table) (p : Fin nproc) : Option (Fin nproc) :=
  (List.finRange nproc).find? fun pp => (t pp).parent = some p ∧ (t pp).state = .zombie

/-- The bytes of an `int`. -/
def intBytes (n : BitVec 32) : List Byte := (List.range 4).map fun i => n.extractLsb' (8 * i) 8

/-- `kwait(addr)` by process `p`, once it has found the exited child `pp`: the
child if it was freed, and how many bytes of its status were copied out. -/
def kwaitAt (p pp : Fin nproc) (addr : Nat) : S (Option (Fin nproc) × Nat) := do
  let proc ← getProc p
  let child ← getProc pp
  let r ← liftK (if addr ≠ 0 then copyout proc.sz proc.pagetable addr (intBytes child.xstate)
    else pure (true, 0))
  if !r.1 then pure (none, r.2)
  else do
    freeproc pp
    pure (some pp, r.2)

/-- `kwait`.  Without an exited child it sleeps or returns -1, which changes
nothing here. -/
def kwait (p : Fin nproc) (addr : Nat) : S (Option (Fin nproc) × Nat) := fun s =>
  match zombieChild s.procs p with
  | none => some ((none, 0), s)
  | some pp => kwaitAt p pp addr s

/-! ## user code -/

/-- The entry the hardware finds for an address, which walks as `walk` does. -/
def hardwarePte (pagetable va : Nat) : K Word :=
  if maxVa ≤ va then pure 0
  else do
    match ← walk pagetable va false with
    | none => pure 0
    | some r => readPte r

/-- `setkilled`, and `kexit(-1)` on the way back to user space. -/
def killProc (p : Fin nproc) : S Unit := do
  let proc ← getProc p
  setProc p { proc with killed := true }
  kexit p (-1)

/-- What a load or a store came to: the byte loaded or stored, a fault after
which the instruction runs again, or the end of the process. -/
inductive Access
  | done (b : Byte)
  | faulted
  | killed
deriving DecidableEq, Repr

/-- A page fault in `usertrap`. -/
def pageFault (p : Fin nproc) (va : Nat) : S Access := do
  let proc ← getProc p
  let pa ← liftK (vmfault proc.sz proc.pagetable va)
  if pa ≠ 0 then pure .faulted
  else do
    killProc p
    pure .killed

/-- User code loads a byte. -/
def userLoad (p : Fin nproc) (va : Nat) : S Access := do
  let proc ← getProc p
  let pte ← liftK (hardwarePte proc.pagetable va)
  if has pte pteV && has pte pteU && has pte pteR then do
    let page ← liftK (readPage (pte2pa pte))
    pure (.done (pageByte page (va % pgSize)))
  else pageFault p va

/-- User code stores a byte. -/
def userStore (p : Fin nproc) (va : Nat) (b : Byte) : S Access := do
  let proc ← getProc p
  let pte ← liftK (hardwarePte proc.pagetable va)
  if has pte pteV && has pte pteU && has pte pteW then do
    liftK (writeBytes (pte2pa pte) (va % pgSize) [b])
    pure (.done b)
  else pageFault p va

end

end MiniOS
