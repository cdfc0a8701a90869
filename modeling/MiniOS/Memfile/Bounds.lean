import MiniOS.InodeRefs
import MiniOS.Memfile.Run
import MiniOS.Syslog

/-!
# MiniOS.Memfile.Bounds

Offsets and sizes over whole runs.  `f->off` of a `struct file` is never set
when the struct is taken for an in-memory file, so it is whatever reads and
writes of inodes or of in-memory files left there.  It stays within
`MAXFILE * BSIZE`, which keeps the `int` arithmetic of `fileread` and
`filewrite` on in-memory files exact, and their accesses in the page.
-/

namespace MiniOS

open Checked Runs FileSys

/-! ## The lengths in C -/

/-- What `struct file`s and in-memory files have in every reachable state. -/
structure FileSys.Bounded (s : FileSys) : Prop where
  off : ∀ f, (s.ftable f).off ≤ maxFile * bsize
  size : ∀ m, (s.mftable m).size ≤ 4096

variable {s : FileSys}

/-- The bounds still hold. -/
def KeepsBounds (s s' : FileSys) : Prop := s.Bounded → s'.Bounded

instance : Std.Refl KeepsBounds := ⟨fun _ => id⟩
instance : IsTrans FileSys KeepsBounds := ⟨fun _ _ _ h h' => h' ∘ h⟩

theorem KeepsBounds.setFile {f : Fin nfile} {file : File}
    (h : s.Bounded → file.off ≤ maxFile * bsize) :
    KeepsBounds s { s with ftable := Function.update s.ftable f file } := fun hs => by
  refine ⟨fun g => ?_, hs.size⟩
  by_cases hg : g = f
  · subst hg
    simpa using h hs
  · simpa [hg] using hs.off g

theorem KeepsBounds.setMemfile {m : Fin nmemfile} {mf : Memfile}
    (h : s.Bounded → mf.size ≤ 4096) :
    KeepsBounds s { s with mftable := Function.update s.mftable m mf } := fun hs => by
  refine ⟨hs.off, fun g => ?_⟩
  by_cases hg : g = m
  · subst hg
    simpa using h hs
  · simpa [hg] using hs.size g

section
variable {f : Fin nfile} {p : Fin nproc} {m : Fin nmemfile}

end

section
variable [KernelImage] {f : Fin nfile} {p : Fin nproc}

variable [Superblock]

variable {ip cwd : Fin ninode}

section
omit [KernelImage]

end

omit [KernelImage]

end

/-! ## Whole runs -/

/-- A use of files: a system call, or a read or write through a descriptor of an inode. -/
inductive FileUse
  | call (c : Call)
  /-- `fails` tells where the copy out fails -/
  | read (p : Fin nproc) (fd : Int) (fails : Nat → Bool) (n : Nat)
  /-- `fails` tells where the copy in fails -/
  | write (p : Fin nproc) (fd : Int) (fails : Nat → Option Nat) (src : List Byte)

/-- A call on a descriptor of an inode, if the file allows it. -/
def onInode (p : Fin nproc) (fd : Int) (allowed : File → Bool) (g : Fin nfile → Fin ninode → M Bool) :
    M Bool := do
  match ← argfd p fd with
  | none => return false
  | some (_, f) =>
    let file ← getFile f
    match file.ip with
    | some ip => if file.type = .inode ∧ allowed file then g f ip else return false
    | none => return false

section
variable [KernelImage] [Superblock]

def FileUse.perform : FileUse → M Bool
  | .call c => c.perform
  | .read p fd fails n => onInode p fd File.readable fun f ip => do
      return (← inoderead f ip fails n).isSome
  | .write p fd fails src => onInode p fd File.writable fun f ip =>
    filewriteLoop f ip fails src.length src

/-- The state after a use, unless the kernel panics in it. -/
def FileSys.use (s : FileSys) (u : FileUse) : Option FileSys :=
  match u.perform s with
  | .ok (_, s') => some s'
  | .error _ => none

omit [KernelImage] [Superblock] in
theorem FileSys.Fresh.bounded {s : FileSys} (h : s.Fresh) : s.Bounded :=
  ⟨fun f => by rw [h.ftable]; exact Nat.zero_le _, fun m => by rw [h.mftable]; exact Nat.zero_le _⟩

end

end MiniOS
