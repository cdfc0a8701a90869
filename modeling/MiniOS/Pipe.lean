import MiniOS.Riscv
import MiniOS.Lib.Ring
import MiniOS.Lib.Runs

/-!
# MiniOS.Pipe

`kernel/pipe.c`: any number of `pipewrite`, `piperead` and `pipeclose` calls on
one pipe.  What a call does from taking `pi->lock` to sleeping or returning is
one step; a call that sleeps may be woken at any time and starts again from its
loop.  User copies succeed.  A pipe has no steps once its page is freed: calls
in progress hold the file that has the end open.
-/

namespace MiniOS

open Ring Runs

/-- `PIPESIZE`. -/
def pipeSize : Nat := 512

/-- `struct pipe` with its buffer, and the history `accepted` of the bytes that were put in `data`. -/
structure PipeBuf where
  data : Nat → Byte
  nread : BitVec 32
  nwrite : BitVec 32
  readopen : Bool
  writeopen : Bool
  accepted : List Byte

/-- How a part of a call under the lock ends. -/
inductive Ended (α : Type)
  /-- the call returns -1 -/
  | failed
  | asleep (a : α)
  | done (a : α)

namespace PipeBuf

/-- `pi->data[pi->nwrite++ % PIPESIZE] = ch`. -/
def store (p : PipeBuf) (ch : Byte) : PipeBuf :=
  { p with
    data := Function.update p.data (p.nwrite.toNat % pipeSize) ch
    nwrite := p.nwrite + 1
    accepted := p.accepted ++ [ch] }

/-- The loop of `pipewrite` with `left` of the bytes at `src` to go, up to its next `sleep`.  `killed i` is
what `killed(pr)` gives in round `i`. -/
def writeLoop (killed : Nat → Bool) (src : Nat → Byte) : Nat → Nat → PipeBuf → Ended Nat × PipeBuf
  | 0, i, p => (.done i, p)
  | left + 1, i, p =>
    if p.readopen = false ∨ killed i then (.failed, p)
    else if p.nwrite = p.nread + BitVec.ofNat 32 pipeSize then (.asleep i, p)
    else writeLoop killed src left (i + 1) (p.store (src i))

/-- The copying loop of `piperead`, with room for `left` bytes. -/
def readLoop : Nat → PipeBuf → List Byte × PipeBuf
  | 0, p => ([], p)
  | left + 1, p =>
    if p.nread = p.nwrite then ([], p)
    else
      let ch := p.data (p.nread.toNat % pipeSize)
      let (bs, p) := readLoop left { p with nread := p.nread + 1 }
      (ch :: bs, p)

/-- `piperead` up to its next `sleep`. -/
def readSection (killed : Bool) (n : Nat) (p : PipeBuf) : Ended (List Byte) × PipeBuf :=
  if p.nread = p.nwrite ∧ p.writeopen then
    if killed then (.failed, p) else (.asleep [], p)
  else
    let (bs, p) := readLoop n p
    (.done bs, p)

/-- Whether an end is open. -/
def isOpen (writable : Bool) (p : PipeBuf) : Bool := if writable then p.writeopen else p.readopen

/-- `pipeclose` up to its `release`. -/
def closeEnd (writable : Bool) (p : PipeBuf) : PipeBuf :=
  if writable then { p with writeopen := false } else { p with readopen := false }

end PipeBuf

/-- A call in progress that does not have the lock. -/
inductive PipeCall
  | idle
  /-- `pipewrite` of `n` bytes of `src`, of which `i` have been written -/
  | writing (src : Nat → Byte) (n i : Nat)
  | reading (n : Nat)

/-- The pipe, the calls in progress, and what was returned. -/
structure PipeSys where
  pipe : PipeBuf
  calls : Nat → PipeCall
  /-- `pipeclose` calls that are about to call `kfree` -/
  freeing : Nat
  /-- how many times the page was freed -/
  freed : Nat
  /-- the reads that returned, each with its `n` and the bytes it returned -/
  reads : List (Nat × List Byte)
  /-- the read that returned in the last step -/
  last : Option (Nat × List Byte)

inductive PipeEvent
  /-- `pipewrite` is called -/
  | write (id : Nat) (src : Nat → Byte) (n : Int)
  /-- `piperead` is called -/
  | read (id : Nat) (n : Int)
  /-- a call gets the lock; `killed` gives what it sees of `killed(pr)` -/
  | run (id : Nat) (killed : Nat → Bool)
  /-- `pipeclose` up to its `release` -/
  | close (writable : Bool)
  /-- the `kfree` of a `pipeclose` -/
  | free

namespace PipeSys

/-- After `pipealloc`, in a page with any contents. -/
def fresh (data : Nat → Byte) : PipeSys :=
  ⟨⟨data, 0, 0, true, true, []⟩, fun _ => .idle, 0, 0, [], none⟩

/-- The bytes that the reads returned, in order. -/
def delivered (s : PipeSys) : List Byte := (s.reads.map (·.2)).flatten

def setCall (s : PipeSys) (id : Nat) (c : PipeCall) : PipeSys :=
  { s with calls := Function.update s.calls id c, last := none }

/-- One step of a call of `pipewrite`. -/
def runWrite (s : PipeSys) (id : Nat) (killed : Nat → Bool) (src : Nat → Byte) (n i : Nat) : PipeSys :=
  let (r, p) := s.pipe.writeLoop killed src (n - i) i
  let s := { s with pipe := p }
  match r with
  | .asleep i => s.setCall id (.writing src n i)
  | _ => s.setCall id .idle

/-- A `piperead` of `n` bytes returns `bs`. -/
def returned (s : PipeSys) (id n : Nat) (bs : List Byte) : PipeSys :=
  { s.setCall id .idle with reads := s.reads ++ [(n, bs)], last := some (n, bs) }

/-- One step of a call of `piperead`. -/
def runRead (s : PipeSys) (id : Nat) (killed : Nat → Bool) (n : Nat) : PipeSys :=
  let (r, p) := s.pipe.readSection (killed 0) n
  let s := { s with pipe := p }
  match r with
  | .asleep _ => s.setCall id (.reading n)
  | .failed => s.setCall id .idle
  | .done bs => s.returned id n bs

/-- One step of a call of `pipeclose`; the second end to be closed frees the page. -/
def runClose (s : PipeSys) (writable : Bool) : PipeSys :=
  let p := s.pipe.closeEnd writable
  let more := if p.readopen = false ∧ p.writeopen = false then 1 else 0
  { s with pipe := p, freeing := s.freeing + more, last := none }

/-- Each end is closed once. -/
def step (s : PipeSys) : PipeEvent → Option PipeSys
  | .write id src n =>
    match s.calls id with
    | .idle => if s.freed = 0 then some (s.setCall id (.writing src n.toNat 0)) else none
    | _ => none
  | .read id n =>
    match s.calls id with
    | .idle => if s.freed = 0 then some (s.setCall id (.reading n.toNat)) else none
    | _ => none
  | .run id killed =>
    if s.freed = 0 then
      match s.calls id with
      | .idle => none
      | .writing src n i => some (s.runWrite id killed src n i)
      | .reading n => some (s.runRead id killed n)
    else none
  | .close writable =>
    if s.pipe.isOpen writable then some (s.runClose writable) else none
  | .free =>
    match s.freeing with
    | 0 => none
    | k + 1 => some { s with freeing := k, freed := s.freed + 1, last := none }

end PipeSys

/-! ## The buffer -/

theorem pipeSize_dvd : pipeSize ∣ 2 ^ 32 := by decide

namespace PipeBuf

variable {p : PipeBuf} {d : Nat}

/-- All but the first `d` of the accepted bytes are in the buffer. -/
structure Rep (p : PipeBuf) (d : Nat) : Prop where
  holds : Holds pipeSize p.data p.accepted d
  nwrite : p.nwrite = BitVec.ofNat 32 p.accepted.length
  nread : p.nread = BitVec.ofNat 32 d

namespace Rep

section
variable (h : p.Rep d)
include h

/-- The full test of `pipewrite`. -/
theorem full_iff :
    p.nwrite = p.nread + BitVec.ofNat 32 pipeSize ↔ p.accepted.length = d + pipeSize := by
  have hle := h.holds.le
  have hfits := h.holds.fits
  rw [h.nwrite, h.nread, ← BitVec.ofNat_add, eq_comm,
    ofNat_inj hfits (by simp only [pipeSize]; omega), eq_comm]

/-- The empty test of `piperead`. -/
theorem empty_iff : p.nread = p.nwrite ↔ p.accepted.length = d := by
  have hle := h.holds.le
  have hfits := h.holds.fits
  simp only [pipeSize] at hfits
  rw [h.nwrite, h.nread, eq_comm, ofNat_inj hle (by omega)]

theorem toNat_sub : (p.nwrite - p.nread).toNat = p.accepted.length - d := by
  have hle := h.holds.le
  have hfits := h.holds.fits
  simp only [pipeSize] at hfits
  rw [h.nwrite, h.nread, toNat_sub_ofNat hle (by omega)]

theorem store (hroom : p.accepted.length ≠ d + pipeSize) (ch : Byte) :
    (p.store ch).Rep d := by
  have hle := h.holds.le
  have hfits := h.holds.fits
  refine ⟨?_, ?_, h.nread⟩
  · have hcell : p.nwrite.toNat % pipeSize = p.accepted.length % pipeSize := by
      rw [h.nwrite, toNat_ofNat_mod pipeSize_dvd]
    simp only [PipeBuf.store, hcell]
    exact h.holds.push (Nat.le_refl d) (by omega) (by omega)
  · simp only [PipeBuf.store, h.nwrite, List.length_append, List.length_singleton, BitVec.ofNat_add]
    rfl

/-- The next byte is taken from the buffer. -/
theorem pop (hne : p.accepted.length ≠ d) :
    p.accepted.drop d = p.data (p.nread.toNat % pipeSize) :: p.accepted.drop (d + 1) ∧
      Rep { p with nread := p.nread + 1 } (d + 1) := by
  have hle := h.holds.le
  refine ⟨?_, h.holds.advance (Nat.le_succ d) (by omega), h.nwrite, ?_⟩
  · rw [h.nread, toNat_ofNat_mod pipeSize_dvd]
    exact h.holds.head (by omega)
  · simp only [h.nread, BitVec.ofNat_add]
    rfl

theorem closeEnd (writable : Bool) : (p.closeEnd writable).Rep d := by
  cases writable <;> exact ⟨h.holds, h.nwrite, h.nread⟩

/-- What the loop of `pipewrite` keeps. -/
theorem writeLoop (killed : Nat → Bool) (src : Nat → Byte) (left i : Nat) :
    (p.writeLoop killed src left i).2.Rep d ∧
      p.accepted <+: (p.writeLoop killed src left i).2.accepted ∧
      (p.writeLoop killed src left i).2.readopen = p.readopen ∧
      (p.writeLoop killed src left i).2.writeopen = p.writeopen := by
  fun_induction PipeBuf.writeLoop killed src left i p with
  | case1 i p => exact ⟨h, List.prefix_rfl, rfl, rfl⟩
  | case2 left i p hstop => exact ⟨h, List.prefix_rfl, rfl, rfl⟩
  | case3 left i p hstop hfull => exact ⟨h, List.prefix_rfl, rfl, rfl⟩
  | case4 left i p hstop hfull ih =>
    obtain ⟨hrep, hacc, hr, hw⟩ := ih (h.store (mt h.full_iff.mpr hfull) _)
    exact ⟨hrep, (List.prefix_append _ _).trans hacc, hr, hw⟩

/-- What the loop of `piperead` returns. -/
theorem readLoop (left : Nat) :
    (p.readLoop left).1 = (p.accepted.drop d).take left ∧
      (p.readLoop left).2.Rep (d + (p.readLoop left).1.length) ∧
      (p.readLoop left).2.accepted = p.accepted ∧
      (p.readLoop left).2.readopen = p.readopen ∧ (p.readLoop left).2.writeopen = p.writeopen := by
  induction left generalizing p d with
  | zero => exact ⟨rfl, h, rfl, rfl, rfl⟩
  | succ left ih =>
    unfold PipeBuf.readLoop
    by_cases hempty : p.nread = p.nwrite
    · have hd := h.empty_iff.mp hempty
      rw [if_pos hempty, List.drop_eq_nil_of_le (Nat.le_of_eq hd)]
      exact ⟨rfl, h, rfl, rfl, rfl⟩
    · obtain ⟨hhead, hrep⟩ := h.pop (mt h.empty_iff.mpr hempty)
      obtain ⟨hbytes, hrest, hacc, hr, hw⟩ := ih hrep
      rw [if_neg hempty, hhead, List.take_succ_cons]
      refine ⟨congrArg _ hbytes, ?_, hacc, hr, hw⟩
      rw [List.length_cons, ← Nat.add_assoc, Nat.add_right_comm]
      exact hrest

end

end Rep

end PipeBuf

namespace PipeSys

variable {s s' : PipeSys} {e : PipeEvent}

/-- What holds between the steps. -/
structure Inv (s : PipeSys) : Prop where
  rep : s.pipe.Rep s.delivered.length
  front : s.delivered <+: s.pipe.accepted
  frees : s.freed + s.freeing = if s.pipe.readopen = false ∧ s.pipe.writeopen = false then 1 else 0
  last : ∀ n, s.last = some (n, []) → 0 < n → s.delivered = s.pipe.accepted ∧ s.pipe.writeopen = false

theorem inv_fresh (data : Nat → Byte) : (fresh data).Inv :=
  ⟨⟨holds_nil _, rfl, rfl⟩, List.prefix_rfl, rfl, fun _ h => by cases h⟩

/-- The calls in progress do not matter to the invariant. -/
theorem Inv.setCall (h : s.Inv) (id : Nat) (c : PipeCall) : (s.setCall id c).Inv :=
  ⟨h.rep, h.front, h.frees, fun _ h => by cases h⟩

theorem delivered_returned (s : PipeSys) (id n : Nat) (bs : List Byte) :
    (s.returned id n bs).delivered = s.delivered ++ bs := by
  simp [delivered, returned]

theorem Inv.runWrite (h : s.Inv) (id : Nat) (killed : Nat → Bool) (src : Nat → Byte) (n i : Nat) :
    (s.runWrite id killed src n i).Inv := by
  obtain ⟨hrep, hacc, hr, hw⟩ := h.rep.writeLoop killed src (n - i) i
  have hinv (c : PipeCall) :
      ({ s with pipe := (s.pipe.writeLoop killed src (n - i) i).2 }.setCall id c).Inv :=
    ⟨hrep, h.front.trans hacc, by simp only [PipeSys.setCall, hr, hw, h.frees], fun _ h => by cases h⟩
  unfold PipeSys.runWrite
  dsimp only
  split <;> exact hinv _

theorem Inv.runRead (h : s.Inv) (id : Nat) (killed : Nat → Bool) (n : Nat) :
    (s.runRead id killed n).Inv := by
  unfold PipeSys.runRead PipeBuf.readSection
  by_cases hwait : s.pipe.nread = s.pipe.nwrite ∧ s.pipe.writeopen
  · rw [if_pos hwait]
    cases killed 0 <;> exact h.setCall id _
  · rw [if_neg hwait]
    obtain ⟨hbytes, hrep, hacc, hr, hw⟩ := h.rep.readLoop n
    have hrest : s.delivered ++ s.pipe.accepted.drop s.delivered.length = s.pipe.accepted :=
      List.prefix_iff_eq_append.mp h.front
    refine ⟨?_, ?_, ?_, ?_⟩
    · rw [delivered_returned, List.length_append]
      exact hrep
    · rw [delivered_returned]
      change s.delivered ++ _ <+: (s.pipe.readLoop n).2.accepted
      rw [hbytes, hacc, ← hrest, List.drop_left]
      exact (List.prefix_append_right_inj _).mpr (List.take_prefix _ _)
    · change _ = if (s.pipe.readLoop n).2.readopen = false ∧ (s.pipe.readLoop n).2.writeopen = false then _ else _
      rw [hr, hw]
      exact h.frees
    · intro m hlast hm
      -- nothing was taken although there was room: nothing was left, and nobody can write
      have hpair : (n, (s.pipe.readLoop n).1) = (m, []) := Option.some.inj hlast
      obtain ⟨rfl, hnil⟩ := Prod.mk.injEq .. ▸ hpair
      have hnone : s.pipe.accepted.drop s.delivered.length = [] := by
        rw [hbytes, List.take_eq_nil_iff] at hnil
        exact hnil.resolve_left (by omega)
      have hall : s.delivered = s.pipe.accepted := by rwa [hnone, List.append_nil] at hrest
      rw [delivered_returned]
      refine ⟨(congrArg _ hnil).trans ?_, hw.trans ?_⟩
      · exact (List.append_nil _).trans (hall.trans hacc.symm)
      · have hempty := h.rep.empty_iff.mpr (congrArg List.length hall.symm)
        simpa [hempty] using hwait

/-- Whichever end is closed, the page is freed for the second one. -/
theorem Inv.runClose (h : s.Inv) {writable : Bool} (hopen : s.pipe.isOpen writable) :
    (s.runClose writable).Inv := by
  have hfrees := h.frees
  cases writable with
  | true =>
    have hw : s.pipe.writeopen = true := hopen
    refine ⟨h.rep.closeEnd true, h.front, ?_, fun _ h => by cases h⟩
    rw [hw] at hfrees
    simp only [PipeSys.runClose, PipeBuf.closeEnd]
    simp_all
  | false =>
    have hr : s.pipe.readopen = true := hopen
    refine ⟨h.rep.closeEnd false, h.front, ?_, fun _ h => by cases h⟩
    simp_all [PipeSys.runClose, PipeBuf.closeEnd]

theorem Inv.step (h : s.Inv) (hs : s.step e = some s') : s'.Inv := by
  cases e with
  | write id src n =>
    simp only [PipeSys.step] at hs
    split at hs
    · split at hs
      · cases hs
        exact h.setCall id _
      · cases hs
    · cases hs
  | read id n =>
    simp only [PipeSys.step] at hs
    split at hs
    · split at hs
      · cases hs
        exact h.setCall id _
      · cases hs
    · cases hs
  | run id killed =>
    simp only [PipeSys.step] at hs
    split at hs
    · split at hs <;> cases hs
      · exact h.runWrite id killed _ _ _
      · exact h.runRead id killed _
    · cases hs
  | close writable =>
    simp only [PipeSys.step] at hs
    split at hs
    · next hopen =>
      cases hs
      exact h.runClose hopen
    · cases hs
  | free =>
    simp only [PipeSys.step] at hs
    split at hs <;> cases hs
    next k hk => exact ⟨h.rep, h.front, by simp only [← h.frees, hk]; omega, fun _ h => by cases h⟩

theorem inv_run {data : Nat → Byte} {es : List PipeEvent} (h : run step (fresh data) es = some s) :
    s.Inv :=
  invariant_of_step (fun _ _ _ h hs => h.step hs) (inv_fresh data) h

end PipeSys

end MiniOS
