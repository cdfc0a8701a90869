import MiniOS.Dir
import MiniOS.Vm
import MiniOS.Proc

/-!
# MiniOS.File

The file table of `kernel/file.c` with its three kinds of backing object:
inodes, pipes and the in-memory files of MiniOS, and the garbage collector of
`kernel/gc.c`.
-/

namespace MiniOS

/-- `NFILE`. -/
abbrev nfile : Nat := 100

/-- `NMEMFILE`. -/
abbrev nmemfile : Nat := 50

/-- `NOFILE`. -/
abbrev nofile : Nat := 16

/-- `NDEV`. -/
abbrev ndev : Nat := 10

/-- The type of an open file: `FD_NONE` and so on. -/
inductive FdType
  | none
  | pipe
  | inode
  | device
  | mem
deriving DecidableEq, Repr

/-- `struct file`. -/
structure File where
  type : FdType
  ref : Nat
  readable : Bool
  writable : Bool
  pipe : Nat
  ip : Option (Fin ninode)
  memf : Option (Fin nmemfile)
  off : Nat
  major : Int

/-- A `struct file` of zeros. -/
def File.zero : File := ⟨.none, 0, false, false, 0, none, none, 0, 0⟩

/-- `struct memfile`. -/
structure Memfile where
  refCount : Nat
  size : Nat
  data : Nat
  isMarkedDeleted : Bool
deriving DecidableEq, Repr

def Memfile.zero : Memfile := ⟨0, 0, 0, false⟩

/-- The ends of a `struct pipe`. -/
structure Pipe where
  readopen : Bool
  writeopen : Bool

/-- The file system and what processes have open in it.  A process that does
not exist has no current directory.  `pipes` is by the address of the pipe's
page; `sections` are the blocks logged by each completed transaction. -/
structure FileSys where
  fs : Fs
  kmem : Kmem
  ftable : Fin nfile → File
  mftable : Fin nmemfile → Memfile
  pipes : Nat → Pipe
  ofile : Fin nproc → Fin nofile → Option (Fin nfile)
  cwd : Fin nproc → Option (Fin ninode)
  sections : List (Finset Nat)

abbrev M := StateT FileSys (Except Panic)

/-- A call of `fs.c`. -/
def liftF {α : Type} (f : F α) : M α := fun s =>
  match f s.fs with
  | .ok (a, fs) => .ok (a, { s with fs := fs })
  | .error e => .error e

/-- A call of `kalloc.c`. -/
def liftMem {α : Type} (f : K α) : M α := fun s =>
  match f s.kmem with
  | some (a, kmem) => .ok (a, { s with kmem := kmem })
  | none => .error .kalloc

def setFile (f : Fin nfile) (file : File) : M Unit :=
  modify fun s => { s with ftable := Function.update s.ftable f file }

def getFile (f : Fin nfile) : M File := do return (← get).ftable f

def setMemfile (m : Fin nmemfile) (mf : Memfile) : M Unit :=
  modify fun s => { s with mftable := Function.update s.mftable m mf }

def getMemfile (m : Fin nmemfile) : M Memfile := do return (← get).mftable m

/-- `begin_op`. -/
def beginOp : M Unit := liftF Fs.beginOp

/-- `end_op`. -/
def endOp : M Unit := modify fun s => { s with sections := s.fs.logged :: s.sections }

/-! ## In-memory files -/

section
variable [KernelImage]

/-- `memfile_create`. -/
def memfileCreate : M (Option (Fin nmemfile)) := do
  let s ← get
  match (List.finRange nmemfile).find? fun m =>
      (s.mftable m).refCount = 0 ∧ (s.mftable m).isMarkedDeleted = false with
  | none => return none -- no free slot
  | some m =>
    let data ← liftMem kallocK
    if data = 0 then
      setMemfile m ⟨0, 0, data, false⟩
      return none
    setMemfile m ⟨1, 0, data, false⟩
    return some m

/-- `memfile_delete`; `false` is -1. -/
def memfileDelete (m : Fin nmemfile) : M Bool := do
  let mf ← getMemfile m
  if mf.refCount < 1 then return false
  setMemfile m { mf with isMarkedDeleted := true }
  return true

/-- One round of the loop of `garbage_collect`. -/
def collect (m : Fin nmemfile) : M Unit := do
  let mf ← getMemfile m
  if mf.isMarkedDeleted ∧ mf.refCount = 0 then
    if mf.data ≠ 0 then liftMem (kfreeK mf.data)
    setMemfile m .zero

/-- `garbage_collect`. -/
def garbageCollect : M Unit := (List.finRange nmemfile).forM collect

/-! ## Pipes -/

/-- `pipeclose`. -/
def pipeclose (pi : Nat) (writable : Bool) : M Unit := do
  let p := (← get).pipes pi
  let p := if writable then { p with writeopen := false } else { p with readopen := false }
  modify fun s => { s with pipes := Function.update s.pipes pi p }
  if p.readopen = false ∧ p.writeopen = false then liftMem (kfreeK pi)

/-! ## The file table -/

/-- `filealloc`. -/
def filealloc : M (Option (Fin nfile)) := do
  let s ← get
  match (List.finRange nfile).find? fun f => (s.ftable f).ref = 0 with
  | some f =>
    setFile f { s.ftable f with ref := 1 }
    return some f
  | none => return none

/-- `filedup`. -/
def filedup (f : Fin nfile) : M (Fin nfile) := do
  let file ← getFile f
  if file.ref < 1 then throw .filedup
  setFile f { file with ref := file.ref + 1 }
  return f

variable [Superblock]

/-- What `fileclose` does with the copy `ff` of a file that has no reference left. -/
def releaseFile (ff : File) : M Unit := do
  match ff.type with
  | .none => return
  | .pipe => pipeclose ff.pipe ff.writable
  | .inode | .device =>
    if let some ip := ff.ip then
      beginOp
      liftF (Fs.iput ip)
      endOp
  | .mem =>
    if let some m := ff.memf then
      let mf ← getMemfile m
      -- `ref_count` is a `uint`
      setMemfile m { mf with refCount := (mf.refCount + (2 ^ 32 - 1)) % 2 ^ 32 }

/-- `fileclose`. -/
def fileclose (f : Fin nfile) : M Unit := do
  let ff ← getFile f
  if ff.ref < 1 then throw .fileclose
  if ff.ref - 1 > 0 then setFile f { ff with ref := ff.ref - 1 }
  else
    setFile f { ff with ref := 0, type := .none }
    releaseFile ff

/-- `pipealloc`. -/
def pipealloc : M (Option (Fin nfile × Fin nfile)) := do
  match ← filealloc with
  | none => return none
  | some rf =>
    match ← filealloc with
    | none =>
      fileclose rf
      return none
    | some wf =>
      let pi ← liftMem kallocK
      if pi = 0 then
        fileclose rf
        fileclose wf
        return none
      modify fun s => { s with pipes := Function.update s.pipes pi ⟨true, true⟩ }
      setFile rf { ← getFile rf with type := .pipe, readable := true, writable := false, pipe := pi }
      setFile wf { ← getFile wf with type := .pipe, readable := false, writable := true, pipe := pi }
      return some (rf, wf)

/-- `fileread` of `n` bytes of an `FD_MEM` file: the bytes it copies out, or
`none` for -1.  `ok` tells whether `copyout` succeeds. -/
def memread (f : Fin nfile) (m : Fin nmemfile) (n : Int) (ok : Bool) : M (Option (List Byte)) := do
  let mf ← getMemfile m
  if (← getFile f).readable = false ∨ mf.isMarkedDeleted then return none
  setFile f { ← getFile f with off := 0 }
  if mf.data = 0 ∨ mf.size = 0 then return some []
  let n := if n > mf.size then (mf.size : Int) else n
  if n > 0 then
    if !ok then return none
    setFile f { ← getFile f with off := n.toNat }
    return some (pageBytes ((← get).kmem.mem mf.data) 0 n.toNat)
  return some []

/-- The copy of `filewrite` into an in-memory file that has its page. -/
def memcopyin (f : Fin nfile) (m : Fin nmemfile) (n : Int) (src : List Byte) (ok : Bool) : M Int := do
  let mf ← getMemfile m
  let off := (← getFile f).off
  let n := if n > 4096 - (off : Int) then 4096 - (off : Int) else n
  if n > 0 then
    liftMem (writeBytes mf.data off (src.take n.toNat))
    if !ok then return -1
    let off := off + n.toNat
    setFile f { ← getFile f with off := off }
    setMemfile m { mf with size := if off > mf.size then off else mf.size }
  return n

/-- `filewrite` of `n` bytes to an `FD_MEM` file: what it returns.  `copyin`
copies the bytes `src`, and fails after them unless `ok`. -/
def memwrite (f : Fin nfile) (m : Fin nmemfile) (n : Int) (src : List Byte) (ok : Bool) : M Int := do
  let mf ← getMemfile m
  if (← getFile f).writable = false ∨ mf.isMarkedDeleted then return -1
  if mf.data = 0 then
    let data ← liftMem kallocK
    setMemfile m { mf with data := data }
    if data = 0 then return -1
  memcopyin f m n src ok

end

end MiniOS
