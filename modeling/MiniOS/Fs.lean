import MiniOS.Disk
import Mathlib.Data.Finset.Insert
import MiniOS.Lib.Checked

/-!
# MiniOS.Fs

Blocks and inodes of `kernel/fs.c`, one call at a time.  The disk is seen
through `bread` and `log_write` as a store of blocks (`MiniOS.BlockStore`);
bitmap and inode blocks are given by the bits and the `struct dinode`s in
them.  `logged` are the numbers of the blocks that were logged since
`begin_op`.

Calls run one after another, so the sleep-locks of buffers are always free and
are left out.  The lock of an inode may be held by the call under way only, and
a call that waits for it waits forever.
-/

namespace MiniOS

open Function (update)

/-! ## Layout -/

/-- `IPB`. -/
abbrev ipb : Nat := 16

/-- `BPB`. -/
abbrev bpb : Nat := 8192

abbrev ndirect : Nat := 12

abbrev nindirect : Nat := 256

/-- `MAXFILE`. -/
abbrev maxFile : Nat := ndirect + nindirect

/-- `NINODE`. -/
abbrev ninode : Nat := 50

instance neZero_ninode : NeZero ninode := ⟨by decide⟩

abbrev rootIno : Nat := 1

/-- The fields of `struct superblock` that the kernel uses after `fsinit`. -/
class Superblock where
  size : Nat
  ninodes : Nat
  inodestart : Nat
  bmapstart : Nat
  size_lt : size < 2 ^ 32

/-- The superblock that `mkfs` writes. -/
@[reducible] def mkfsSuperblock : Superblock where
  size := 20000
  ninodes := 200
  inodestart := 33
  bmapstart := 46
  size_lt := by decide

section
variable [Superblock]

/-- `BBLOCK`. -/
def bblock (b : Nat) : Nat := b / bpb + Superblock.bmapstart

/-- `IBLOCK`. -/
def iblock (inum : Nat) : Nat := inum / ipb + Superblock.inodestart

end

/-- Why the kernel stopped. -/
inductive Panic
  | freeingFreeBlock
  | igetNoInodes
  | ilock
  | ilockNoType
  | iunlock
  /-- no panic: the call waits for a lock that it holds itself -/
  | deadlock
  | bmapOutOfRange
  | dirlookupNotDir
  | dirlookupRead
  | dirlinkRead
  | isdiremptyReadi
  | unlinkNlink
  | unlinkWritei
  | filedup
  | fileclose
  /-- a panic of the page allocator -/
  | kalloc
deriving DecidableEq, Repr

/-! ## State -/

/-- The type of an inode; `free` is 0. -/
inductive IType
  | free
  | dir
  | file
  | device
deriving DecidableEq, Repr

/-- The value of a `short` that is assigned `x`. -/
def toShort (x : Int) : Int := (x + 32768) % 65536 - 32768

/-- `struct dinode`; `addrs` has `NDIRECT + 1` entries. -/
structure Dinode where
  type : IType
  major : Int
  minor : Int
  nlink : Int
  size : Nat
  addrs : Nat → Nat

/-- A `struct dinode` of zeros. -/
def Dinode.free : Dinode := ⟨.free, 0, 0, 0, 0, fun _ => 0⟩

/-- `struct inode`, with the copy `d` of the disk inode. -/
structure Inode where
  inum : Nat
  ref : Nat
  valid : Bool
  d : Dinode

/-- The disk, the inode table, and the transaction.  `locked` are the locks of the entries. -/
structure Fs where
  bitmap : Nat → Bool
  dinode : Nat → Dinode
  data : Disk
  itable : Fin ninode → Inode
  logged : Finset Nat
  locked : Fin ninode → Bool

abbrev F := StateT Fs (Except Panic)

namespace Fs

/-- `log_write` of block `b`. -/
def logWrite (b : Nat) : F Unit := modify fun s => { s with logged := insert b s.logged }

def setData (b : Nat) (x : BlockData) : F Unit :=
  modify fun s => { s with data := update s.data b x }

def setInode (i : Fin ninode) (ip : Inode) : F Unit :=
  modify fun s => { s with itable := update s.itable i ip }

def getInode (i : Fin ninode) : F Inode := do return (← get).itable i

/-- An assignment to fields of the copy of the disk inode. -/
def modifyInode (i : Fin ninode) (f : Dinode → Dinode) : F Unit := do
  let ip ← getInode i
  setInode i { ip with d := f ip.d }

section
variable [Superblock]

/-! ## Blocks -/

/-- `bzero`. -/
def bzero (b : Nat) : F Unit := do
  setData b zeroBlock
  logWrite b

/-- The loops of `balloc` over the bits from `b` on. -/
def findFree (bitmap : Nat → Bool) : Nat → Nat → Option Nat
  | 0, _ => none
  | n + 1, b => if bitmap b then findFree bitmap n (b + 1) else some b

/-- `balloc`. -/
def balloc : F Nat := do
  match findFree (← get).bitmap Superblock.size 0 with
  | some b =>
    modify fun s => { s with bitmap := update s.bitmap b true }
    logWrite (bblock b)
    bzero b
    return b
  | none => return 0 -- balloc: out of blocks

/-- `bfree`. -/
def bfree (b : Nat) : F Unit := do
  if !(← get).bitmap b then throw .freeingFreeBlock
  modify fun s => { s with bitmap := update s.bitmap b false }
  logWrite (bblock b)

/-! ## The inode table -/

/-- `iget`: the entry of the inode, or an unused one. -/
def iget (inum : Nat) : F (Fin ninode) := do
  let s ← get
  match (List.finRange ninode).find? fun i => 0 < (s.itable i).ref ∧ (s.itable i).inum = inum with
  | some i =>
    setInode i { s.itable i with ref := (s.itable i).ref + 1 }
    return i
  | none =>
    match (List.finRange ninode).find? fun i => (s.itable i).ref = 0 with
    | some i =>
      setInode i { s.itable i with inum := inum, ref := 1, valid := false }
      return i
    | none => throw .igetNoInodes

/-- `idup`. -/
def idup (i : Fin ninode) : F (Fin ninode) := do
  let ip ← getInode i
  setInode i { ip with ref := ip.ref + 1 }
  return i

/-- `acquiresleep` of the lock of an inode. -/
def acquiresleep (i : Fin ninode) : F Unit := do
  if (← get).locked i then throw .deadlock
  modify fun s => { s with locked := update s.locked i true }

/-- `releasesleep`. -/
def releasesleep (i : Fin ninode) : F Unit :=
  modify fun s => { s with locked := update s.locked i false }

/-- `ilock`. -/
def ilock (i : Fin ninode) : F Unit := do
  let s ← get
  let ip := s.itable i
  if ip.ref < 1 then throw .ilock
  acquiresleep i
  if !ip.valid then
    setInode i { ip with d := s.dinode ip.inum, valid := true }
    if (s.dinode ip.inum).type = .free then throw .ilockNoType

/-- `iunlock`. -/
def iunlock (i : Fin ninode) : F Unit := do
  let s ← get
  if s.locked i = false ∨ (s.itable i).ref < 1 then throw .iunlock
  releasesleep i

/-- `iupdate`. -/
def iupdate (i : Fin ninode) : F Unit := do
  let ip ← getInode i
  modify fun s => { s with dinode := update s.dinode ip.inum ip.d }
  logWrite (iblock ip.inum)

/-- The loop of `ialloc` from `inum` on. -/
def findFreeInode (dinode : Nat → Dinode) : Nat → Nat → Option Nat
  | 0, _ => none
  | n + 1, inum =>
    if (dinode inum).type = .free then some inum else findFreeInode dinode n (inum + 1)

/-- `ialloc`. -/
def ialloc (type : IType) : F (Option (Fin ninode)) := do
  match findFreeInode (← get).dinode (Superblock.ninodes - 1) 1 with
  | some inum =>
    let dip : Dinode := ⟨type, 0, 0, 0, 0, fun _ => 0⟩
    modify fun s => { s with dinode := update s.dinode inum dip }
    logWrite (iblock inum)
    return some (← iget inum)
  | none => return none -- ialloc: no inodes

/-! ## Inode content -/

/-- The indirect part of `bmap`: entry `bn` of the indirect block `ind`. -/
def bmapEntry (ind bn : Nat) : F Nat := do
  let addr := ((← get).data ind).word bn
  if addr = 0 then
    let addr ← balloc
    if addr ≠ 0 then
      setData ind (((← get).data ind).setWord bn addr)
      logWrite ind
    return addr
  else return addr

/-- An entry of `ip->addrs`, with a new block if there is none. -/
def bmapAddr (i : Fin ninode) (n : Nat) : F Nat := do
  let addr := (← getInode i).d.addrs n
  if addr = 0 then
    let addr ← balloc
    if addr ≠ 0 then
      modifyInode i fun d => { d with addrs := update d.addrs n addr }
    return addr
  else return addr

/-- `bmap`. -/
def bmap (i : Fin ninode) (bn : Nat) : F Nat := do
  if bn < ndirect then bmapAddr i bn
  else if bn - ndirect < nindirect then
    let ind ← bmapAddr i ndirect
    if ind = 0 then return 0
    bmapEntry ind (bn - ndirect)
  else throw .bmapOutOfRange

/-- The first loop of `itrunc`: the direct blocks `ns`. -/
def truncDirect (i : Fin ninode) : List Nat → F Unit
  | [] => return
  | n :: ns => do
      let addr := (← getInode i).d.addrs n
      if addr ≠ 0 then
        bfree addr
        modifyInode i fun d => { d with addrs := update d.addrs n 0 }
      truncDirect i ns

/-- The second loop of `itrunc`: the entries `js` of an indirect block. -/
def truncEntries (a : BlockData) : List Nat → F Unit
  | [] => return
  | j :: js => do
      if a.word j ≠ 0 then bfree (a.word j)
      truncEntries a js

/-- `itrunc`. -/
def itrunc (i : Fin ninode) : F Unit := do
  truncDirect i (List.range ndirect)
  let ind := (← getInode i).d.addrs ndirect
  if ind ≠ 0 then
    truncEntries ((← get).data ind) (List.range nindirect)
    bfree ind
    modifyInode i fun d => { d with addrs := update d.addrs ndirect 0 }
  modifyInode i fun d => { d with size := 0 }
  iupdate i

/-- `iput`. -/
def iput (i : Fin ninode) : F Unit := do
  let ip ← getInode i
  if ip.ref = 1 ∧ ip.valid ∧ ip.d.nlink = 0 then
    acquiresleep i
    itrunc i
    modifyInode i fun d => { d with type := .free }
    iupdate i
    let ip ← getInode i
    setInode i { ip with valid := false }
    releasesleep i
  let ip ← getInode i
  setInode i { ip with ref := ip.ref - 1 }

/-- The loop of `readi` at `off` with `n` bytes to go.  `fails` tells whether the
copy out of a chunk that starts at the given offset of the file fails. -/
def readLoop (i : Fin ninode) (fails : Nat → Bool) : Nat → Nat → Nat → List Byte →
    F (Option (List Byte))
  | 0, _, _, acc => return some acc
  | fuel + 1, off, n, acc => do
      if n = 0 then return some acc
      let addr ← bmap i (off / bsize)
      if addr = 0 then return some acc
      let bp := (← get).data addr
      let m := min n (bsize - off % bsize)
      if fails off then return none
      readLoop i fails fuel (off + m) (n - m)
        (acc ++ (List.range m).map fun k => bp.byte (off % bsize + k))

/-- `readi`: the bytes it copies out, or `none` when it returns -1. -/
def readi (i : Fin ninode) (fails : Nat → Bool) (off n : Nat) : F (Option (List Byte)) := do
  let size := (← getInode i).d.size
  if size < off ∨ 2 ^ 32 ≤ off + n then return some []
  let n := if size < off + n then size - off else n
  readLoop i fails n off n []

/-- `bp` with the bytes of `src` at `o`. -/
def overwrite (bp : BlockData) (o : Nat) : List Byte → BlockData
  | [] => bp
  | x :: xs => overwrite (bp.setByte o x) (o + 1) xs

/-- The loop of `writei` at `off` with the bytes `src` to go.  `fails` tells for
a chunk how many bytes are copied before the copy fails, if it fails; such a
block is not logged.  Returns `off`. -/
def writeLoop (i : Fin ninode) (fails : Nat → Option Nat) : Nat → Nat → List Byte → F Nat
  | 0, off, _ => return off
  | fuel + 1, off, src => do
      if src = [] then return off
      let addr ← bmap i (off / bsize)
      if addr = 0 then return off
      let bp := (← get).data addr
      let chunk := src.take (bsize - off % bsize)
      match fails off with
      | some k =>
        setData addr (overwrite bp (off % bsize) (chunk.take k))
        return off
      | none =>
        setData addr (overwrite bp (off % bsize) chunk)
        logWrite addr
        writeLoop i fails fuel (off + chunk.length) (src.drop chunk.length)

/-- `writei`: the number of bytes written, or `none` for -1. -/
def writei (i : Fin ninode) (fails : Nat → Option Nat) (off : Nat) (src : List Byte) :
    F (Option Nat) := do
  let size := (← getInode i).d.size
  if size < off ∨ 2 ^ 32 ≤ off + src.length then return none
  if off + src.length > maxFile * bsize then return none
  let off' ← writeLoop i fails src.length off src
  modifyInode i fun d => if d.size < off' then { d with size := off' } else d
  iupdate i
  return some (off' - off)

end

end Fs

end MiniOS
