import MiniOS.Kernel

/-!
# MiniOS.Exec

`kexec` of `kernel/exec.c`: build a new user image from an ELF file and the
argument strings, and commit to it or go back to the old one.

The file is the contents of the inode that `namei` has found, and a string of
`argv` is its bytes without the terminating 0.  The fields of the two kinds of
header are read at their offsets in the C structs; fields that `kexec` does
not use are left out.
-/

namespace MiniOS

/-- A little-endian number of `n` bytes. -/
def leNat (bs : List Byte) (off n : Nat) : Nat :=
  (List.range n).foldr (fun i acc => (bs.getD (off + i) 0).toNat + 256 * acc) 0

/-- `readi` of `n` bytes at `off`, both `uint`: what it reads. -/
def readi (file : List Byte) (off n : Nat) : List Byte :=
  if file.length < off ∨ 2 ^ 32 ≤ off + n then [] else (file.drop off).take n

/-! ## headers -/

/-- `struct elfhdr`. -/
structure Elfhdr where
  entry : Nat
  phoff : Nat
  phnum : Nat
deriving Repr

/-- `struct proghdr`. -/
structure Proghdr where
  type : Nat
  flags : Nat
  off : Nat
  vaddr : Nat
  filesz : Nat
  memsz : Nat
deriving Repr

def elfMagic : Nat := 0x464C457F

def elfProgLoad : Nat := 1

/-- The ELF header of a file that has one. -/
def readElfhdr (file : List Byte) : Option Elfhdr :=
  let bs := readi file 0 64
  if bs.length ≠ 64 then none
  else if leNat bs 0 4 ≠ elfMagic then none
  else some { entry := leNat bs 24 8, phoff := leNat bs 32 8, phnum := leNat bs 56 2 }

/-- `sizeof(struct proghdr)`. -/
def sizeofProghdr : Nat := 56

/-- The program header at an offset; `off` is an `int`. -/
def readProghdr (file : List Byte) (off : Nat) : Option Proghdr :=
  let bs := readi file (off % 2 ^ 32) sizeofProghdr
  if bs.length ≠ sizeofProghdr then none
  else some {
    type := leNat bs 0 4, flags := leNat bs 4 4, off := leNat bs 8 8
    vaddr := leNat bs 16 8, filesz := leNat bs 32 8, memsz := leNat bs 40 8 }

/-- The checks on a segment to load. -/
def Proghdr.wellFormed (ph : Proghdr) : Bool :=
  ph.filesz ≤ ph.memsz ∧ ph.vaddr ≤ (ph.vaddr + ph.memsz) % 2 ^ 64 ∧ ph.vaddr % pgSize = 0

/-- `ph.vaddr + ph.memsz`. -/
def Proghdr.top (ph : Proghdr) : Nat := (ph.vaddr + ph.memsz) % 2 ^ 64

def flags2perm (flags : Nat) : Word :=
  (if flags.testBit 0 then pteX else 0) ||| (if flags.testBit 1 then pteW else 0)

section
variable [KernelImage]

/-! ## loading segments -/

/-- The loop of `loadseg` over the pages left, from byte `i` of the segment. -/
def loadsegLoop (pagetable va : Nat) (file : List Byte) (offset sz : Nat) : Nat → Nat → K Bool
  | 0, _ => pure true
  | left + 1, i => do
      let pa ← walkaddr pagetable (va + i)
      if pa = 0 then kpanic
      else do
        let n := min (sz - i) pgSize
        let bs := readi file ((offset + i) % 2 ^ 32) n
        -- a short read has written what there was
        writeBytes pa 0 bs
        if bs.length ≠ n then pure false
        else loadsegLoop pagetable va file offset sz left (i + pgSize)

/-- `loadseg`; `offset` and `sz` are `uint`. -/
def loadseg (pagetable va : Nat) (file : List Byte) (offset sz : Nat) : K Bool :=
  loadsegLoop pagetable va file offset (sz % 2 ^ 32) ((sz % 2 ^ 32 + pgSize - 1) / pgSize) 0

/-- The loop over the program headers left; whether all of it succeeded, and
the size reached. -/
def loadProgram (pagetable : Nat) (file : List Byte) : Nat → Nat → Nat → K (Bool × Nat)
  | 0, _, sz => pure (true, sz)
  | left + 1, off, sz =>
    match readProghdr file off with
    | none => pure (false, sz)
    | some ph =>
      if ph.type ≠ elfProgLoad then loadProgram pagetable file left (off + sizeofProghdr) sz
      else if !ph.wellFormed then pure (false, sz)
      else do
        let sz1 ← uvmalloc pagetable sz ph.top (flags2perm ph.flags)
        if sz1 = 0 then pure (false, sz)
        else do
          if ← loadseg pagetable ph.vaddr file ph.off ph.filesz then
            loadProgram pagetable file left (off + sizeofProghdr) sz1
          else pure (false, sz1)

/-! ## the stack -/

def maxArg : Nat := 32

/-- Copy the argument strings onto the stack: the stack pointer and the
addresses of the strings.  A string too long for the stack fails at
`stackbase`; in C `sp` then lies above `MAXVA` and `copyout` fails. -/
def pushArgs (psz pagetable stackbase : Nat) :
    List (List Byte) → Nat → List Nat → K (Option (Nat × List Nat))
  | [], sp, ustack => pure (some (sp, ustack))
  | arg :: argv, sp, ustack =>
    if maxArg ≤ ustack.length then pure none
    else
      let sp := (sp - (arg.length + 1)) / 16 * 16
      if sp < stackbase then pure none
      else do
        let r ← copyout psz pagetable sp (arg ++ [0])
        if !r.1 then pure none else pushArgs psz pagetable stackbase argv sp (ustack ++ [sp])

/-- The bytes of a `uint64`. -/
def uint64Bytes (n : Nat) : List Byte := (List.range 8).map fun i => BitVec.ofNat 8 (n / 256 ^ i)

/-- How building an image ends: at `bad` with the size so far, or with the
size and the stack pointer of the image. -/
inductive Built
  | bad (sz : Nat)
  | image (sz sp : Nat)

/-- The stack above a program of size `sz`: a guard page, and a page with the
arguments.  `copyout` faults with the size of the process, which is still the
old one. -/
def buildStack (psz pagetable sz : Nat) (argv : List (List Byte)) : K Built := do
  let sz := pgRoundUp sz
  let sz1 ← uvmalloc pagetable sz (sz + 2 * pgSize) pteW
  if sz1 = 0 then pure (.bad sz)
  else do
    uvmclear pagetable (sz1 - 2 * pgSize)
    let stackbase := sz1 - pgSize
    match ← pushArgs psz pagetable stackbase argv sz1 [] with
    | none => pure (.bad sz1)
    | some (sp, ustack) =>
      let sp := (sp - (ustack.length + 1) * 8) / 16 * 16
      if sp < stackbase then pure (.bad sz1)
      else do
        let r ← copyout psz pagetable sp ((ustack ++ [0]).flatMap uint64Bytes)
        if !r.1 then pure (.bad sz1) else pure (.image sz1 sp)

/-- The program and its stack. -/
def buildImage (psz pagetable : Nat) (file : List Byte) (elf : Elfhdr) (argv : List (List Byte)) :
    K Built := do
  let r ← loadProgram pagetable file elf.phnum elf.phoff 0
  if !r.1 then pure (.bad r.2) else buildStack psz pagetable r.2 argv

/-- `kexec` by process `p`: the argument count, or none. -/
def kexec (p : Fin nproc) (file : List Byte) (argv : List (List Byte)) : S (Option Nat) := do
  let proc ← getProc p
  match readElfhdr file with
  | none => pure none
  | some elf => do
      let pagetable ← liftK (procPagetable proc.trapframe)
      if pagetable = 0 then pure none
      else do
        match ← liftK (buildImage proc.sz pagetable file elf argv) with
        | .bad sz => do
            liftK (procFreepagetable pagetable sz)
            pure none
        | .image sz sp => do
            -- commit to the user image
            liftK (writePte ⟨proc.trapframe, tfA1⟩ (BitVec.ofNat 64 sp))
            setProc p { proc with pagetable := pagetable, sz := sz }
            liftK (writePte ⟨proc.trapframe, tfEpc⟩ (BitVec.ofNat 64 elf.entry))
            liftK (writePte ⟨proc.trapframe, tfSp⟩ (BitVec.ofNat 64 sp))
            liftK (procFreepagetable proc.pagetable proc.sz)
            pure (some argv.length)

end

end MiniOS
