import MiniOS.File
import MiniOS.Exec

/-!
# MiniOS.SysFile

The system calls of `kernel/sysfile.c` that work on descriptors and paths, and
the file part of `kfork`, `kexit` and `kexec`.  A path argument is `none` when
`argstr` fails.  What the model leaves open is an argument: whether a `copyout`
succeeds, and whether `kfork` and `kexec` get their process and memory.
-/

namespace MiniOS

open Function (update)

section
variable [KernelImage] [Superblock]

/-- `argfd`. -/
def argfd (p : Fin nproc) (fd : Int) : M (Option (Fin nofile × Fin nfile)) := do
  let s ← get
  if h : 0 ≤ fd ∧ fd.toNat < nofile then
    return (s.ofile p ⟨fd.toNat, h.2⟩).map fun f => (⟨fd.toNat, h.2⟩, f)
  else return none

def setOfile (p : Fin nproc) (fd : Fin nofile) (f : Option (Fin nfile)) : M Unit :=
  modify fun s => { s with ofile := update s.ofile p (update (s.ofile p) fd f) }

/-- `fdalloc`. -/
def fdalloc (p : Fin nproc) (f : Fin nfile) : M (Option (Fin nofile)) := do
  let s ← get
  match (List.finRange nofile).find? fun fd => s.ofile p fd = none with
  | some fd =>
    setOfile p fd (some f)
    return some fd
  | none => return none

/-- `sys_dup`; `none` is -1 here and below. -/
def sysDup (p : Fin nproc) (fd : Int) : M (Option (Fin nofile)) := do
  match ← argfd p fd with
  | none => return none
  | some (_, f) =>
    match ← fdalloc p f with
    | none => return none
    | some fd =>
      let _ ← filedup f
      return some fd

/-- `sys_close`. -/
def sysClose (p : Fin nproc) (fd : Int) : M Bool := do
  match ← argfd p fd with
  | none => return false
  | some (fd, f) =>
    setOfile p fd none
    fileclose f
    return true

/-- `sys_pipe`; `ok0` and `ok1` tell whether its two calls of `copyout` succeed. -/
def sysPipe (p : Fin nproc) (ok0 ok1 : Bool) : M Bool := do
  match ← pipealloc with
  | none => return false
  | some (rf, wf) =>
    match ← fdalloc p rf with
    | none =>
      fileclose rf
      fileclose wf
      return false
    | some fd0 =>
      match ← fdalloc p wf with
      | none =>
        setOfile p fd0 none
        fileclose rf
        fileclose wf
        return false
      | some fd1 =>
        if ok0 ∧ ok1 then return true
        setOfile p fd0 none
        setOfile p fd1 none
        fileclose rf
        fileclose wf
        return false

/-- `sys_memcreate`. -/
def sysMemcreate (p : Fin nproc) : M (Option (Fin nofile)) := do
  match ← filealloc with
  | none => return none
  | some f =>
    match ← fdalloc p f with
    | none =>
      fileclose f
      return none
    | some fd =>
      match ← memfileCreate with
      | none =>
        -- the descriptor `fd` is left as it is
        fileclose f
        return none
      | some mf =>
        setFile f { ← getFile f with
          type := .mem, memf := some mf, readable := true, writable := true }
        return some fd

/-- `sys_memdelete`. -/
def sysMemdelete (p : Fin nproc) (fd : Int) : M Bool := do
  match ← argfd p fd with
  | none => return false
  | some (_, f) =>
    let file ← getFile f
    match file.memf with
    | some m => if file.type = .mem then memfileDelete m else return false
    | none => return false

/-! ## Open -/

def oWronly : Nat := 0x001
def oRdwr : Nat := 0x002
def oCreate : Nat := 0x200
def oTrunc : Nat := 0x400

/-- The inode that `sys_open` opens, locked; `none` where it returns -1. -/
def openInode (cwd : Fin ninode) (path : List Byte) (omode : Nat) : F (Option (Fin ninode)) := do
  if omode &&& oCreate ≠ 0 then Fs.create cwd path .file 0 0
  else
    match ← Fs.namei cwd path with
    | none => return none
    | some ip =>
      Fs.ilock ip
      if (← Fs.getInode ip).d.type = .dir ∧ omode ≠ 0 then
        Fs.iunlockput ip
        return none
      return some ip

/-- `sys_open` from its inode on: the file `f` with the descriptor `fd`. -/
def bindInode (f : Fin nfile) (ip : Fin ninode) (omode : Nat) : M Unit := do
  let d := (← liftF (Fs.getInode ip)).d
  let file ← getFile f
  let file :=
    if d.type = .device then { file with type := .device, major := d.major }
    else { file with type := .inode, off := 0 }
  setFile f { file with
    ip := some ip
    readable := omode &&& oWronly = 0
    writable := omode &&& oWronly ≠ 0 ∨ omode &&& oRdwr ≠ 0 }
  if omode &&& oTrunc ≠ 0 ∧ d.type = .file then liftF (Fs.itrunc ip)
  liftF (Fs.iunlock ip)

/-- `sys_open` where it has no file or no descriptor. -/
def openBad (ip : Fin ninode) : M (Option (Fin nofile)) := do
  liftF (Fs.iunlockput ip)
  endOp
  return none

/-- `sys_open`. -/
def sysOpen (p : Fin nproc) (cwd : Fin ninode) (path : Option (List Byte)) (omode : Nat) :
    M (Option (Fin nofile)) := do
  match path with
  | none => return none
  | some path =>
    beginOp
    match ← liftF (openInode cwd path omode) with
    | none =>
      endOp
      return none
    | some ip =>
      let d := (← liftF (Fs.getInode ip)).d
      if d.type = .device ∧ (d.major < 0 ∨ (ndev : Int) ≤ d.major) then openBad ip
      else
        match ← filealloc with
        | none => openBad ip
        | some f =>
          match ← fdalloc p f with
          | none =>
            fileclose f
            openBad ip
          | some fd =>
            bindInode f ip omode
            endOp
            return some fd

/-! ## Directories -/

/-- A call that is one transaction on the file system; it does nothing else when `argstr` fails. -/
def transaction {α β : Type} (arg : Option α) (f : α → F β) : M (Option β) := do
  beginOp
  match arg with
  | none =>
    endOp
    return none
  | some a =>
    let b ← liftF (f a)
    endOp
    return some b

/-- `sys_link`, when both `argstr` succeed. -/
def sysLink (cwd : Fin ninode) (old new : List Byte) : M (Option Bool) :=
  transaction (some ()) fun _ => Fs.link cwd old new

/-- `sys_unlink`, when `argstr` succeeds. -/
def sysUnlink (cwd : Fin ninode) (path : List Byte) : M (Option Bool) :=
  transaction (some ()) fun _ => Fs.unlink cwd path

/-- `sys_mkdir`. -/
def sysMkdir (cwd : Fin ninode) (path : Option (List Byte)) : M (Option Bool) :=
  transaction path fun path => Fs.mknod cwd path .dir 0 0

/-- `sys_mknod`. -/
def sysMknod (cwd : Fin ninode) (path : Option (List Byte)) (major minor : Int) :
    M (Option Bool) :=
  transaction path fun path => Fs.mknod cwd path .device major minor

/-- `sys_chdir`. -/
def sysChdir (p : Fin nproc) (cwd : Fin ninode) (path : Option (List Byte)) : M Bool := do
  match ← transaction path fun path => Fs.chdir cwd path with
  | some (some ip) =>
    modify fun s => { s with cwd := update s.cwd p (some ip) }
    return true
  | _ => return false

/-! ## Reading and writing -/

/-- The largest write of one transaction of `filewrite`. -/
def maxWrite : Nat := ((10 - 1 - 1 - 2) / 2) * bsize

/-- One transaction of `filewrite` of an inode: the bytes `src` at `f->off`. -/
def writeChunk (f : Fin nfile) (ip : Fin ninode) (fails : Nat → Option Nat) (src : List Byte) :
    M (Option Nat) := do
  beginOp
  liftF (Fs.ilock ip)
  let off := (← getFile f).off
  let r ← liftF (Fs.writei ip fails off src)
  if let some n := r then
    setFile f { ← getFile f with off := off + n }
  liftF (Fs.iunlock ip)
  endOp
  return r

/-- The loop of `filewrite` of an inode; whether it wrote everything. -/
def filewriteLoop (f : Fin nfile) (ip : Fin ninode) (fails : Nat → Option Nat) :
    Nat → List Byte → M Bool
  | 0, src => return src = []
  | fuel + 1, src => do
      if src = [] then return true
      let chunk := src.take maxWrite
      let r ← writeChunk f ip fails chunk
      if r ≠ some chunk.length then return false
      filewriteLoop f ip fails fuel (src.drop chunk.length)

/-- `fileread` of an inode. -/
def inoderead (f : Fin nfile) (ip : Fin ninode) (fails : Nat → Bool) (n : Nat) :
    M (Option (List Byte)) := do
  liftF (Fs.ilock ip)
  let off := (← getFile f).off
  let r ← liftF (Fs.readi ip fails off n)
  if let some bs := r then
    setFile f { ← getFile f with off := off + bs.length }
  liftF (Fs.iunlock ip)
  return r

/-! ## Exec -/

/-- `readi` of `n` bytes into the kernel; `none` unless it reads all of them. -/
def readExact (ip : Fin ninode) (off n : Nat) : F (Option (List Byte)) := do
  match ← Fs.readi ip Fs.noFail off n with
  | some bs => return if bs.length = n then some bs else none
  | none => return none

/-- The reads of `loadseg` over the pages left, from byte `i` of the segment. -/
def readSegment (ip : Fin ninode) (offset sz : Nat) : Nat → Nat → F Bool
  | 0, _ => return true
  | left + 1, i => do
      match ← readExact ip ((offset + i) % 2 ^ 32) (min (sz - i) pgSize) with
      | none => return false
      | some _ => readSegment ip offset sz left (i + pgSize)

/-- The reads of the loop of `kexec` over the program headers left; `mem` tells
whether `uvmalloc` succeeds. -/
def readProgram (ip : Fin ninode) (mem : Nat → Bool) : Nat → Nat → F Bool
  | 0, _ => return true
  | left + 1, off => do
      match (← readExact ip (off % 2 ^ 32) sizeofProghdr).bind (readProghdr · 0) with
      | none => return false
      | some ph =>
        if ph.type ≠ elfProgLoad then return ← readProgram ip mem left (off + sizeofProghdr)
        if !ph.wellFormed ∨ !mem left then return false
        let sz := ph.filesz % 2 ^ 32
        if ← readSegment ip ph.off sz ((sz + pgSize - 1) / pgSize) 0 then
          readProgram ip mem left (off + sizeofProghdr)
        else return false

/-- The reads of `kexec`; `pagetable` tells whether `proc_pagetable` succeeds. -/
def readImage (ip : Fin ninode) (pagetable : Bool) (mem : Nat → Bool) : F Bool := do
  match (← readExact ip 0 64).bind readElfhdr with
  | none => return false
  | some elf => if pagetable then readProgram ip mem elf.phnum elf.phoff else return false

/-- `kexec` between `begin_op` and `end_op`: whether the program is loaded. -/
def execFile (cwd : Fin ninode) (path : List Byte) (pagetable : Bool) (mem : Nat → Bool) : F Bool := do
  match ← Fs.namei cwd path with
  | none => return false
  | some ip =>
    Fs.ilock ip
    let r ← readImage ip pagetable mem
    Fs.iunlockput ip
    return r

/-- `sys_exec`, when it can read its arguments. -/
def sysExec (cwd : Fin ninode) (path : List Byte) (pagetable : Bool) (mem : Nat → Bool) :
    M (Option Bool) :=
  transaction (some ()) fun _ => execFile cwd path pagetable mem

/-! ## Fork and exit -/

/-- The loop of `kfork` over the descriptors `fds`. -/
def forkLoop (p np : Fin nproc) : List (Fin nofile) → M Unit
  | [] => return
  | fd :: fds => do
      if let some f := (← get).ofile p fd then
        let f ← filedup f
        setOfile np fd (some f)
      forkLoop p np fds

/-- `kfork`, with the process `np` it got from `allocproc`; `ok` tells whether
`uvmcopy` succeeds. -/
def forkFiles (p np : Fin nproc) (cwd : Fin ninode) (ok : Bool) : M Bool := do
  if !ok then return false
  forkLoop p np (List.finRange nofile)
  let ip ← liftF (Fs.idup cwd)
  modify fun s => { s with cwd := update s.cwd np (some ip) }
  return true

/-- The loop of `kexit` over the descriptors `fds`. -/
def exitLoop (p : Fin nproc) : List (Fin nofile) → M Unit
  | [] => return
  | fd :: fds => do
      if let some f := (← get).ofile p fd then
        fileclose f
        setOfile p fd none
      exitLoop p fds

/-- `kexit`. -/
def exitFiles (p : Fin nproc) (cwd : Fin ninode) : M Unit := do
  exitLoop p (List.finRange nofile)
  beginOp
  liftF (Fs.iput cwd)
  endOp
  modify fun s => { s with cwd := update s.cwd p none }

end

end MiniOS
