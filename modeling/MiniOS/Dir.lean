import MiniOS.Fs

/-!
# MiniOS.Dir

Directories and path names of `kernel/fs.c`, and the directory part of the
system calls of `kernel/sysfile.c`.  A path is its bytes without the
terminating 0; a name is a path element, cut to `DIRSIZ` bytes.
-/

namespace MiniOS

/-- `DIRSIZ`. -/
abbrev dirSiz : Nat := 14

/-- `sizeof(struct dirent)`. -/
abbrev sizeofDirent : Nat := 16

abbrev Name := List Byte

/-- `struct dirent`, with the bytes of `name` before a 0. -/
structure Dirent where
  inum : Nat
  name : Name
deriving DecidableEq

/-- The `struct dirent` in 16 bytes. -/
def Dirent.decode (bs : List Byte) : Dirent where
  inum := (bs.getD 0 0).toNat + 256 * (bs.getD 1 0).toNat
  name := ((bs.drop 2).take dirSiz).takeWhile (· ≠ 0)

/-- The 16 bytes of a `struct dirent`; `inum` is a `ushort` and `strncpy` pads the name with 0. -/
def Dirent.encode (de : Dirent) : List Byte :=
  [BitVec.ofNat 8 de.inum, BitVec.ofNat 8 (de.inum / 256)] ++
    (de.name.take dirSiz ++ List.replicate (dirSiz - de.name.length) 0)

/-- `"."`. -/
def dot : Name := [46]

/-- `".."`. -/
def dotdot : Name := [46, 46]

namespace Fs

variable [Superblock]

/-- The kernel reads and writes its own memory: copies never fail. -/
def noFail : Nat → Bool := fun _ => false

def noFailW : Nat → Option Nat := fun _ => none

/-- `readi` of the directory entry at `off`; `none` when it is cut short. -/
def readDirent (i : Fin ninode) (off : Nat) : F (Option Dirent) := do
  match ← readi i noFail off sizeofDirent with
  | some bs => return if bs.length = sizeofDirent then some (.decode bs) else none
  | none => return none

/-- The loop of `dirlookup` from `off` on. -/
def lookupLoop (dp : Fin ninode) (name : Name) : Nat → Nat → F (Option (Fin ninode × Nat))
  | 0, _ => return none
  | fuel + 1, off => do
      if (← getInode dp).d.size ≤ off then return none
      match ← readDirent dp off with
      | none => throw .dirlookupRead
      | some de =>
        if de.inum ≠ 0 ∧ de.name = name then return some (← iget de.inum, off)
        lookupLoop dp name fuel (off + sizeofDirent)

/-- `dirlookup`: the inode of the entry, and the offset of the entry. -/
def dirlookup (dp : Fin ninode) (name : Name) : F (Option (Fin ninode × Nat)) := do
  let d := (← getInode dp).d
  if d.type ≠ .dir then throw .dirlookupNotDir
  lookupLoop dp name (d.size / sizeofDirent + 1) 0

/-- The loop of `dirlink` from `off` on: the offset of the first empty entry. -/
def emptyLoop (dp : Fin ninode) : Nat → Nat → F Nat
  | 0, off => return off
  | fuel + 1, off => do
      if (← getInode dp).d.size ≤ off then return off
      match ← readDirent dp off with
      | none => throw .dirlinkRead
      | some de => if de.inum = 0 then return off else emptyLoop dp fuel (off + sizeofDirent)

/-- `dirlink`; `false` is -1. -/
def dirlink (dp : Fin ninode) (name : Name) (inum : Nat) : F Bool := do
  match ← dirlookup dp name with
  | some (ip, _) =>
    iput ip
    return false
  | none =>
    let off ← emptyLoop dp ((← getInode dp).d.size / sizeofDirent + 1) 0
    return (← writei dp noFailW off (Dirent.encode ⟨inum, name⟩)) = some sizeofDirent

/-! ## Paths -/

/-- `'/'`. -/
def slash : Byte := 47

/-- `skipelem`: the next element of a path, and what follows it. -/
def skipelem (path : List Byte) : Option (Name × List Byte) :=
  let path := path.dropWhile (· = slash)
  if path = [] then none
  else some ((path.takeWhile (· ≠ slash)).take dirSiz,
    (path.dropWhile (· ≠ slash)).dropWhile (· = slash))

/-- The elements that successive calls of `skipelem` give. -/
def pathElems : Nat → List Byte → List Name
  | 0, _ => []
  | fuel + 1, path =>
    match skipelem path with
    | some (name, rest) => name :: pathElems fuel rest
    | none => []

/-- `iunlockput`. -/
def iunlockput (i : Fin ninode) : F Unit := do
  iunlock i
  iput i

/-- The loop of `namex` at the inode `ip` with the elements `elems` to go. -/
def namexLoop (parent : Bool) : Fin ninode → List Name → F (Option (Fin ninode × Name))
  | ip, [] => do
      if parent then
        iput ip
        return none
      return some (ip, [])
  | ip, name :: elems => do
      ilock ip
      if (← getInode ip).d.type ≠ .dir then
        iunlockput ip
        return none
      if parent ∧ elems = [] then
        -- stop one level early
        iunlock ip
        return some (ip, name)
      match ← dirlookup ip name with
      | none =>
        iunlockput ip
        return none
      | some (next, _) =>
        iunlockput ip
        namexLoop parent next elems

/-- `namex` in a process whose current directory is `cwd`. -/
def namex (cwd : Fin ninode) (path : List Byte) (parent : Bool) :
    F (Option (Fin ninode × Name)) := do
  let ip ← if path.head? = some slash then iget rootIno else idup cwd
  namexLoop parent ip (pathElems (path.length + 1) path)

/-- `namei`. -/
def namei (cwd : Fin ninode) (path : List Byte) : F (Option (Fin ninode)) := do
  return (← namex cwd path false).map (·.1)

/-- `nameiparent`. -/
def nameiparent (cwd : Fin ninode) (path : List Byte) : F (Option (Fin ninode × Name)) :=
  namex cwd path true

/-! ## System calls -/

/-- `begin_op`: a new transaction, as far as `log_write` goes. -/
def beginOp : F Unit := modify fun s => { s with logged := ∅ }

/-- The label `fail` of `create`. -/
def createFail (dp ip : Fin ninode) : F (Option (Fin ninode)) := do
  modifyInode ip fun d => { d with nlink := 0 }
  iupdate ip
  iunlockput ip
  iunlockput dp
  return none

/-- `create` once the new inode `ip` is allocated. -/
def createLink (dp ip : Fin ninode) (name : Name) (type : IType) (major minor : Int) :
    F (Option (Fin ninode)) := do
  ilock ip
  modifyInode ip fun d => { d with major := toShort major, minor := toShort minor, nlink := 1 }
  iupdate ip
  let inum := (← getInode ip).inum
  if type = .dir then
    if !(← dirlink ip dot inum) then return ← createFail dp ip
    if !(← dirlink ip dotdot (← getInode dp).inum) then return ← createFail dp ip
  if !(← dirlink dp name inum) then return ← createFail dp ip
  if type = .dir then
    modifyInode dp fun d => { d with nlink := toShort (d.nlink + 1) }
    iupdate dp
  iunlockput dp
  return some ip

/-- `create`: the inode, locked. -/
def create (cwd : Fin ninode) (path : List Byte) (type : IType) (major minor : Int) :
    F (Option (Fin ninode)) := do
  match ← nameiparent cwd path with
  | none => return none
  | some (dp, name) =>
    ilock dp
    match ← dirlookup dp name with
    | some (ip, _) =>
      iunlockput dp
      ilock ip
      let t := (← getInode ip).d.type
      if type = .file ∧ (t = .file ∨ t = .device) then return some ip
      iunlockput ip
      return none
    | none =>
      match ← ialloc type with
      | none =>
        iunlockput dp
        return none
      | some ip => createLink dp ip name type major minor

/-- The label `bad` of `sys_link`. -/
def linkBad (ip : Fin ninode) : F Bool := do
  ilock ip
  modifyInode ip fun d => { d with nlink := toShort (d.nlink - 1) }
  iupdate ip
  iunlockput ip
  return false

/-- `sys_link` between `begin_op` and `end_op`. -/
def link (cwd : Fin ninode) (old new : List Byte) : F Bool := do
  match ← namei cwd old with
  | none => return false
  | some ip =>
    ilock ip
    if (← getInode ip).d.type = .dir then
      iunlockput ip
      return false
    modifyInode ip fun d => { d with nlink := toShort (d.nlink + 1) }
    iupdate ip
    iunlock ip
    match ← nameiparent cwd new with
    | none => linkBad ip
    | some (dp, name) =>
      ilock dp
      if ← dirlink dp name (← getInode ip).inum then
        iunlockput dp
        iput ip
        return true
      iunlockput dp
      linkBad ip

/-- The loop of `isdirempty` from `off` on. -/
def isdiremptyLoop (dp : Fin ninode) : Nat → Nat → F Bool
  | 0, _ => return true
  | fuel + 1, off => do
      if (← getInode dp).d.size ≤ off then return true
      match ← readDirent dp off with
      | none => throw .isdiremptyReadi
      | some de => if de.inum ≠ 0 then return false else isdiremptyLoop dp fuel (off + sizeofDirent)

/-- `isdirempty`. -/
def isdirempty (dp : Fin ninode) : F Bool := do
  isdiremptyLoop dp ((← getInode dp).d.size / sizeofDirent + 1) (2 * sizeofDirent)

/-- `sys_unlink` once the entry at `off` of `dp` is known to name `ip`, which may go. -/
def unlinkEntry (dp ip : Fin ninode) (off : Nat) : F Unit := do
  if (← writei dp noFailW off (List.replicate sizeofDirent 0)) ≠ some sizeofDirent then
    throw .unlinkWritei
  if (← getInode ip).d.type = .dir then
    modifyInode dp fun d => { d with nlink := toShort (d.nlink - 1) }
    iupdate dp
  iunlockput dp
  modifyInode ip fun d => { d with nlink := toShort (d.nlink - 1) }
  iupdate ip
  iunlockput ip

/-- `sys_unlink` of the entry `name` of the directory `dp`, to which it has a reference. -/
def unlinkIn (dp : Fin ninode) (name : Name) : F Bool := do
  ilock dp
  if name = dot ∨ name = dotdot then
    iunlockput dp
    return false
  match ← dirlookup dp name with
  | none =>
    iunlockput dp
    return false
  | some (ip, off) =>
    ilock ip
    if (← getInode ip).d.nlink < 1 then throw .unlinkNlink
    if (← getInode ip).d.type = .dir then
      if !(← isdirempty ip) then
        iunlockput ip
        iunlockput dp
        return false
    unlinkEntry dp ip off
    return true

/-- `sys_unlink` between `begin_op` and `end_op`. -/
def unlink (cwd : Fin ninode) (path : List Byte) : F Bool := do
  match ← nameiparent cwd path with
  | none => return false
  | some (dp, name) => unlinkIn dp name

/-- `sys_mkdir` and `sys_mknod` between `begin_op` and `end_op`. -/
def mknod (cwd : Fin ninode) (path : List Byte) (type : IType) (major minor : Int) : F Bool := do
  match ← create cwd path type major minor with
  | none => return false
  | some ip =>
    iunlockput ip
    return true

/-- `sys_chdir` between `begin_op` and `end_op`: the new current directory. -/
def chdir (cwd : Fin ninode) (path : List Byte) : F (Option (Fin ninode)) := do
  match ← namei cwd path with
  | none => return none
  | some ip =>
    ilock ip
    if (← getInode ip).d.type ≠ .dir then
      iunlockput ip
      return none
    iunlock ip
    iput cwd
    return some ip

end Fs

end MiniOS
