import MiniOS.LogSpace
import MiniOS.Lib.Total

/-!
# MiniOS.Bio

The buffer cache and the log on top of it, one process at a time between the
points at which it sleeps.  `none` is a panic, or a wait for a buffer that
somebody else has locked.
-/

namespace MiniOS

open Function (update)

/-- `NBUF`. -/
abbrev nbuf : Nat := 30

/-- `ROOTDEV`. -/
abbrev rootdev : Nat := 1

/-- `struct buf`. -/
structure Buf where
  valid : Bool
  dev : Nat
  blockno : Nat
  locked : Bool
  refcnt : Nat
  data : BlockData

/-- The cache, the disk and the log.  `lru` lists the buffers from
`head.next`, the most recently used, to `head.prev`; `trace` are the writes
made to the disk, in order. -/
structure Bio where
  buf : Fin nbuf → Buf
  lru : List (Fin nbuf)
  disk : Disk
  log : Log
  trace : List (Nat × BlockData)

abbrev B := StateT Bio Option

def Bio.setBuf (s : Bio) (i : Fin nbuf) (b : Buf) : Bio :=
  { s with buf := update s.buf i b }

def setBuf (i : Fin nbuf) (b : Buf) : B Unit := modify (·.setBuf i b)

def getBuf (i : Fin nbuf) : B Buf := do return (← get).buf i

/-- The test of the search loop of `bget`. -/
def Bio.caches (s : Bio) (b : Nat) (i : Fin nbuf) : Bool :=
  (s.buf i).dev = rootdev ∧ (s.buf i).blockno = b

/-- `bget` of a block of the root device. -/
def bget (b : Nat) : B (Fin nbuf) := do
  let s ← get
  match s.lru.find? (s.caches b) with
  | some i =>
    if (s.buf i).locked then failure
    setBuf i { s.buf i with refcnt := (s.buf i).refcnt + 1, locked := true }
    return i
  | none =>
    match s.lru.reverse.find? fun i => (s.buf i).refcnt = 0 with
    | some i =>
      if (s.buf i).locked then failure
      setBuf i { s.buf i with
        dev := rootdev, blockno := b, valid := false, refcnt := 1, locked := true }
      return i
    | none => failure -- bget: no buffers

/-- `bread`. -/
def bread (b : Nat) : B (Fin nbuf) := do
  let i ← bget b
  let s ← get
  if !(s.buf i).valid then
    setBuf i { s.buf i with data := s.disk (s.buf i).blockno, valid := true }
  return i

/-- `bwrite`. -/
def bwrite (i : Fin nbuf) : B Unit := do
  let s ← get
  let b := s.buf i
  if !b.locked then failure
  set { s with disk := update s.disk b.blockno b.data
               trace := s.trace ++ [(b.blockno, b.data)] }

/-- `brelse`. -/
def brelse (i : Fin nbuf) : B Unit := do
  let s ← get
  let b := s.buf i
  if !b.locked then failure
  setBuf i { b with locked := false, refcnt := b.refcnt - 1 }
  if b.refcnt - 1 = 0 then
    modify fun s => { s with lru := i :: s.lru.erase i }

/-- `bpin`. -/
def bpin (i : Fin nbuf) : B Unit := do
  let b ← getBuf i
  setBuf i { b with refcnt := b.refcnt + 1 }

/-- `bunpin`. -/
def bunpin (i : Fin nbuf) : B Unit := do
  let b ← getBuf i
  setBuf i { b with refcnt := b.refcnt - 1 }

/-- The holder of a buffer stores into it. -/
def setData (i : Fin nbuf) (x : BlockData) : B Unit := do
  let b ← getBuf i
  setBuf i { b with data := x }

def setLog (log : Log) : B Unit := modify fun s => { s with log := log }

/-- `log_write`. -/
def logWrite (i : Fin nbuf) : B Unit := do
  let s ← get
  let b := s.buf i
  let log ← liftM (s.log.logWrite b.blockno)
  setLog log
  if b.blockno ∉ s.log.lh then bpin i

/-- A change of a held buffer, with its `log_write`. -/
def storeBuf (i : Fin nbuf) (x : BlockData) : B Unit := do
  setData i x
  logWrite i

/-- `write_log` from `tail` on. -/
def bioWriteLog (start : Nat) : Nat → List Nat → B Unit
  | _, [] => return
  | tail, b :: bs => do
      let toBuf ← bread (start + tail + 1)
      let fromBuf ← bread b
      setData toBuf (← getBuf fromBuf).data
      bwrite toBuf
      brelse fromBuf
      brelse toBuf
      bioWriteLog start (tail + 1) bs

/-- `write_head`. -/
def bioWriteHead (start : Nat) : B Unit := do
  let lh := (← get).log.lh
  let buf ← bread start
  setData buf (headerBlock (← getBuf buf).data lh)
  bwrite buf
  brelse buf

/-- `install_trans` from `tail` on. -/
def bioInstallTrans (start : Nat) (recovering : Bool) : Nat → List Nat → B Unit
  | _, [] => return
  | tail, b :: bs => do
      let lbuf ← bread (start + tail + 1)
      let dbuf ← bread b
      setData dbuf (← getBuf lbuf).data
      bwrite dbuf
      if !recovering then bunpin dbuf
      brelse lbuf
      brelse dbuf
      bioInstallTrans start recovering (tail + 1) bs

def clearLog : B Unit := modify fun s => { s with log := { s.log with lh := [] } }

/-- `commit`. -/
def bioCommit (start : Nat) : B Unit := do
  let lh := (← get).log.lh
  if lh.length > 0 then
    bioWriteLog start 0 lh
    bioWriteHead start
    bioInstallTrans start false 0 lh
    clearLog
    bioWriteHead start

/-- `recover_from_log`. -/
def bioRecover (start : Nat) : B Unit := do
  let buf ← bread start
  let lh := headerBlocks (← getBuf buf).data
  setLog { (← get).log with lh := lh }
  brelse buf
  bioInstallTrans start true 0 lh
  clearLog
  bioWriteHead start

/-- `begin_op`. -/
def bioBeginOp : B Unit := do
  setLog (← liftM (← get).log.beginOp)

/-- `end_op`. -/
def bioEndOp (start : Nat) : B Unit := do
  let (doCommit, log) ← liftM (← get).log.endOp
  setLog log
  if doCommit then
    bioCommit start
    setLog { (← get).log with committing := false }

/-- The cache that `binit` sets up, over a disk and with an empty log. -/
def binit (d : Disk) : Bio where
  buf _ := ⟨false, 0, 0, false, 0, zeroBlock⟩
  lru := (List.finRange nbuf).reverse
  disk := d
  log := ⟨[], 0, false⟩
  trace := []

/-! ## Clients -/

/-- What the file system does with the cache and the log, by block number. -/
inductive BioOp
  | bread (b : Nat)
  | brelse (b : Nat)
  | beginOp
  /-- the holder of a buffer changes it and calls `log_write` -/
  | store (b : Nat) (x : BlockData)
  | endOp

/-- The cache, the buffers that `bread` has returned and `brelse` has not yet
given back, and for every block what was last stored through `log_write`. -/
structure BlockStore where
  bio : Bio
  held : Nat → Option (Fin nbuf)
  stored : Disk

/-- One call of a client. -/
def BlockStore.step (start : Nat) (s : BlockStore) : BioOp → Option BlockStore
  | .bread b =>
    (bread b s.bio).map fun (i, bio) => { s with bio := bio, held := update s.held b (some i) }
  | .brelse b =>
    (s.held b).bind fun i =>
      (brelse i s.bio).map fun (_, bio) => { s with bio := bio, held := update s.held b none }
  | .beginOp => (bioBeginOp s.bio).map fun (_, bio) => { s with bio := bio }
  | .store b x =>
    (s.held b).bind fun i =>
      (storeBuf i x s.bio).map fun (_, bio) =>
        { s with bio := bio, stored := update s.stored b x }
  | .endOp => (bioEndOp start s.bio).map fun (_, bio) => { s with bio := bio }

/-- Before the first call: an empty cache over the disk `d`. -/
def BlockStore.init (d : Disk) : BlockStore := ⟨binit d, fun _ => none, d⟩

end MiniOS
