import MiniOS.SysFile
import MiniOS.Lib.Runs

/-!
# MiniOS.Calls

Processes that make system calls on files and directories, one complete call
after another.
-/

namespace MiniOS

/-- A call of a process, or a run of the garbage collector.  Descriptor and
path arguments are arbitrary. -/
inductive Call
  | open (p : Fin nproc) (path : Option (List Byte)) (omode : Nat)
  | dup (p : Fin nproc) (fd : Int)
  | close (p : Fin nproc) (fd : Int)
  | pipe (p : Fin nproc) (ok0 ok1 : Bool)
  | memcreate (p : Fin nproc)
  | memdelete (p : Fin nproc) (fd : Int)
  /-- `write` to an in-memory file -/
  | memwrite (p : Fin nproc) (fd : Int) (n : Int) (src : List Byte) (ok : Bool)
  /-- `read` from an in-memory file -/
  | memread (p : Fin nproc) (fd : Int) (n : Int) (ok : Bool)
  | mkdir (p : Fin nproc) (path : Option (List Byte))
  | mknod (p : Fin nproc) (path : Option (List Byte)) (major minor : Int)
  | link (p : Fin nproc) (old new : List Byte)
  | unlink (p : Fin nproc) (path : List Byte)
  | chdir (p : Fin nproc) (path : Option (List Byte))
  /-- as far as the program is read -/
  | exec (p : Fin nproc) (path : List Byte) (pagetable : Bool) (mem : Nat → Bool)
  /-- `np` is the process that `allocproc` returns -/
  | fork (p np : Fin nproc) (ok : Bool)
  | exit (p : Fin nproc)
  | collect

section
variable [KernelImage] [Superblock]

/-- A call by the process `p`, if there is one, with its current directory. -/
def byProcess (p : Fin nproc) (f : Fin ninode → M Bool) : M Bool := do
  match (← get).cwd p with
  | some cwd => f cwd
  | none => return false

/-- `sys_write` to a descriptor of an in-memory file. -/
def sysMemwrite (p : Fin nproc) (fd : Int) (n : Int) (src : List Byte) (ok : Bool) : M Bool := do
  match ← argfd p fd with
  | none => return false
  | some (_, f) =>
    let file ← getFile f
    match file.memf with
    | some m => if file.type = .mem then return (← memwrite f m n src ok) ≠ -1 else return false
    | none => return false

/-- `sys_read` from a descriptor of an in-memory file. -/
def sysMemread (p : Fin nproc) (fd : Int) (n : Int) (ok : Bool) : M Bool := do
  match ← argfd p fd with
  | none => return false
  | some (_, f) =>
    let file ← getFile f
    match file.memf with
    | some m => if file.type = .mem then return (← memread f m n ok).isSome else return false
    | none => return false

/-- What a call does; `false` when it returns -1. -/
def Call.perform : Call → M Bool
  | .open p path omode => byProcess p fun cwd => do return (← sysOpen p cwd path omode).isSome
  | .dup p fd => byProcess p fun _ => do return (← sysDup p fd).isSome
  | .close p fd => byProcess p fun _ => sysClose p fd
  | .pipe p ok0 ok1 => byProcess p fun _ => sysPipe p ok0 ok1
  | .memcreate p => byProcess p fun _ => do return (← sysMemcreate p).isSome
  | .memdelete p fd => byProcess p fun _ => sysMemdelete p fd
  | .memwrite p fd n src ok => byProcess p fun _ => sysMemwrite p fd n src ok
  | .memread p fd n ok => byProcess p fun _ => sysMemread p fd n ok
  | .mkdir p path => byProcess p fun cwd => do return (← sysMkdir cwd path) = some true
  | .mknod p path major minor => byProcess p fun cwd => do
      return (← sysMknod cwd path major minor) = some true
  | .link p old new => byProcess p fun cwd => do return (← sysLink cwd old new) = some true
  | .unlink p path => byProcess p fun cwd => do return (← sysUnlink cwd path) = some true
  | .chdir p path => byProcess p fun cwd => sysChdir p cwd path
  | .exec p path pagetable mem => byProcess p fun cwd => do
      return (← sysExec cwd path pagetable mem) = some true
  | .fork p np ok => byProcess p fun cwd => do
      -- `np` must be unused
      if (← get).cwd np = none then forkFiles p np cwd ok else return false
  | .exit p => byProcess p fun cwd => do
      exitFiles p cwd
      return true
  | .collect => do
      garbageCollect
      return true

/-- The state after a call, unless the kernel panics in it. -/
def FileSys.step (s : FileSys) (c : Call) : Option FileSys :=
  match c.perform s with
  | .ok (_, s') => some s'
  | .error _ => none

end

/-- No file is open and no in-memory file exists. -/
structure FileSys.Fresh (s : FileSys) : Prop where
  ftable : ∀ f, s.ftable f = File.zero
  mftable : ∀ m, s.mftable m = Memfile.zero
  ofile : ∀ p fd, s.ofile p fd = none

end MiniOS
