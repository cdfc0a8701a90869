import MiniOS.Riscv
import MiniOS.Lib.Ring
import MiniOS.Lib.Runs
import Mathlib.Data.List.DropRight

/-!
# MiniOS.Console

The console input of `kernel/console.c`: `consoleintr` puts each character in a
circular buffer and edits the current line, `consoleread` waits for whole
lines.  What a read does from taking `cons.lock` to sleeping or returning is
one step, and characters may come while it sleeps.  User copies succeed.

`Tty` says what the line discipline is: characters are typed and erased in a
line, a line is committed as a whole, and reads take committed characters.
-/

namespace MiniOS

open Ring

/-- `INPUT_BUF_SIZE`. -/
def inputBufSize : Nat := 128

/-- `C('D')`. -/
def ctrlD : Int := 4
/-- `C('H')`. -/
def ctrlH : Int := 8
/-- `C('P')`. -/
def ctrlP : Int := 16
/-- `C('U')`. -/
def ctrlU : Int := 21
/-- `'\x7f'`. -/
def delete : Int := 0x7f
/-- `'\n'`. -/
def newline : Int := 10
/-- `'\r'`. -/
def carriageReturn : Int := 13

/-- The `char` that an `int` is stored as. -/
def toChar (c : Int) : Byte := BitVec.ofInt 8 c

/-- `cons`. -/
structure Cons where
  buf : Nat → Byte
  r : BitVec 32
  w : BitVec 32
  e : BitVec 32

/-- How a `consoleread` returns. -/
inductive ReadEnd
  | full
  | newline
  /-- `C('D')` was read -/
  | eof
  /-- -1: the process was killed while it waited -/
  | killed
deriving DecidableEq, Repr

/-- A `consoleread` of `target` bytes with `n` to go, which sleeps. -/
structure ConsReader where
  target : Nat
  n : Nat
  got : List Byte

/-- A `consoleread` that returned: its argument, the bytes it copied out, and why it returned. -/
structure ConsRead where
  n : Int
  bytes : List Byte
  stop : ReadEnd

namespace Cons

/-- The cell of `buf` for an index. -/
def cell (i : BitVec 32) : Nat := i.toNat % inputBufSize

/-- The loop of `C('U')`; `fuel` is `e - w`. -/
def killLoop : Nat → Cons → Cons
  | 0, s => s
  | fuel + 1, s =>
    if s.e ≠ s.w ∧ s.buf (cell (s.e - 1)) ≠ toChar newline then killLoop fuel { s with e := s.e - 1 }
    else s

/-- The `default` case of `consoleintr`. -/
def store (s : Cons) (c : Int) : Cons :=
  if c ≠ 0 ∧ (s.e - s.r).toNat < inputBufSize then
    let c := if c = carriageReturn then newline else c
    let s := { s with buf := Function.update s.buf (cell s.e) (toChar c), e := s.e + 1 }
    -- a whole line, or end-of-file, or no room for more
    if c = newline ∨ c = ctrlD ∨ (s.e - s.r).toNat = inputBufSize then { s with w := s.e } else s
  else s

/-- `consoleintr`. -/
def consoleintr (s : Cons) (c : Int) : Cons :=
  if c = ctrlP then s
  else if c = ctrlU then killLoop (s.e - s.w).toNat s
  else if c = ctrlH ∨ c = delete then if s.e ≠ s.w then { s with e := s.e - 1 } else s
  else s.store c

/-- The loop of `consoleread` with `n` bytes to go, up to its next `sleep`: the bytes copied so far, and
how the call returns or how much it has to go. -/
def readLoop (killed : Bool) (target : Nat) : Nat → Cons → List Byte → (ReadEnd ⊕ Nat) × List Byte × Cons
  | 0, s, got => (.inl .full, got, s)
  | n + 1, s, got =>
    if s.r = s.w then (if killed then .inl .killed else .inr (n + 1), got, s)
    else
      let c := s.buf (cell s.r)
      let s := { s with r := s.r + 1 }
      if c = toChar ctrlD then
        -- save `C('D')` for the next read, so that it returns 0
        (.inl .eof, got, if n + 1 < target then { s with r := s.r - 1 } else s)
      else if c = toChar newline then (.inl .newline, got ++ [c], s)
      else readLoop killed target n s (got ++ [c])

end Cons

/-- The console, the read in progress and the reads that returned. -/
structure ConsSys where
  cons : Cons
  reader : Option ConsReader
  reads : List ConsRead

inductive ConsEvent
  /-- `consoleintr(c)` -/
  | intr (c : Int)
  /-- `consoleread` of `n` bytes is called -/
  | read (n : Int)
  /-- the read gets the lock; `killed` is what `killed(myproc())` gives -/
  | run (killed : Bool)

/-- What the end of a part of a read means for the call. -/
def settle (rd : ConsReader) (res : (ReadEnd ⊕ Nat) × List Byte) (reads : List ConsRead) :
    Option ConsReader × List ConsRead :=
  match res.1 with
  | .inl stop => (none, reads ++ [⟨rd.target, res.2, stop⟩])
  | .inr n => (some ⟨rd.target, n, res.2⟩, reads)

/-- The state after `consoleinit`. -/
def ConsSys.init (buf : Nat → Byte) : ConsSys := ⟨⟨buf, 0, 0, 0⟩, none, []⟩

/-- One read at a time. -/
def consStep (s : ConsSys) : ConsEvent → Option ConsSys
  | .intr c => some { s with cons := s.cons.consoleintr c }
  | .read n =>
    match s.reader with
    | none =>
      -- without `n > 0` the loop is not entered
      if n ≤ 0 then some { s with reads := s.reads ++ [⟨n, [], .full⟩] }
      else some { s with reader := some ⟨n.toNat, n.toNat, []⟩ }
    | some _ => none
  | .run killed =>
    match s.reader with
    | none => none
    | some rd =>
      let res := s.cons.readLoop killed rd.target rd.n rd.got
      let next := settle rd (res.1, res.2.1) s.reads
      some ⟨res.2.2, next.1, next.2⟩

/-! ## The line discipline -/

/-- The characters committed so far, how many of them were read, and the current line. -/
structure Tty where
  committed : List Byte
  taken : Nat
  line : List Byte
  reader : Option ConsReader
  reads : List ConsRead

namespace Tty

/-- How many characters are in the buffer. -/
def held (t : Tty) : Nat := t.committed.length + t.line.length - t.taken

/-- A character is typed. -/
def type (t : Tty) (c : Int) : Tty :=
  if c = ctrlP then t
  else if c = ctrlU then { t with line := t.line.rdropWhile (· ≠ toChar newline) }
  else if c = ctrlH ∨ c = delete then { t with line := t.line.dropLast }
  else if c ≠ 0 ∧ t.held < inputBufSize then
    let c := if c = carriageReturn then newline else c
    let line := t.line ++ [toChar c]
    if c = newline ∨ c = ctrlD ∨ t.held + 1 = inputBufSize then
      { t with committed := t.committed ++ line, line := [] }
    else { t with line := line }
  else t

/-- A read of `target` characters with `n` to go takes from `input`; the number is how many it takes. -/
def take (killed : Bool) (target : Nat) : Nat → List Byte → List Byte → (ReadEnd ⊕ Nat) × List Byte × Nat
  | 0, _, got => (.inl .full, got, 0)
  | n + 1, [], got => (if killed then .inl .killed else .inr (n + 1), got, 0)
  | n + 1, c :: input, got =>
    if c = toChar ctrlD then (.inl .eof, got, if n + 1 < target then 0 else 1)
    else if c = toChar newline then (.inl .newline, got ++ [c], 1)
    else
      let res := take killed target n input (got ++ [c])
      (res.1, res.2.1, res.2.2 + 1)

def init : Tty := ⟨[], 0, [], none, []⟩

def step (t : Tty) : ConsEvent → Option Tty
  | .intr c => some (t.type c)
  | .read n =>
    match t.reader with
    | none =>
      if n ≤ 0 then some { t with reads := t.reads ++ [⟨n, [], .full⟩] }
      else some { t with reader := some ⟨n.toNat, n.toNat, []⟩ }
    | some _ => none
  | .run killed =>
    match t.reader with
    | none => none
    | some rd =>
      let res := take killed rd.target rd.n (t.committed.drop t.taken) rd.got
      let next := settle rd (res.1, res.2.1) t.reads
      some { t with taken := t.taken + res.2.2, reader := next.1, reads := next.2 }

end Tty

/-! ## The buffer implements it -/

theorem inputBufSize_dvd : inputBufSize ∣ 2 ^ 32 := by decide

/-- The committed unread characters and the line are in the buffer, and the indices delimit them. -/
structure Cons.Rep (s : Cons) (t : Tty) : Prop where
  holds : Holds inputBufSize s.buf (t.committed ++ t.line) t.taken
  taken : t.taken ≤ t.committed.length
  r : s.r = BitVec.ofNat 32 t.taken
  w : s.w = BitVec.ofNat 32 t.committed.length
  e : s.e = BitVec.ofNat 32 (t.committed.length + t.line.length)

namespace Cons.Rep

variable {s : Cons} {t : Tty}

section
variable (h : s.Rep t)
include h

theorem fits : t.committed.length + t.line.length ≤ t.taken + 128 := by
  have := h.holds.fits
  rwa [List.length_append] at this

theorem sub_er : (s.e - s.r).toNat = t.held := by
  have := h.fits
  have := h.taken
  rw [h.e, h.r, toNat_sub_ofNat (by omega) (by omega), Tty.held]

theorem sub_ew : (s.e - s.w).toNat = t.line.length := by
  have := h.fits
  have := h.taken
  rw [h.e, h.w, toNat_sub_ofNat (by omega) (by omega), Nat.add_sub_cancel_left]

theorem sub_wr : (s.w - s.r).toNat = t.committed.length - t.taken := by
  have := h.fits
  have := h.taken
  rw [h.w, h.r, toNat_sub_ofNat h.taken (by omega)]

/-- There is no current line if the indices `e` and `w` are equal. -/
theorem line_nil_iff : s.e = s.w ↔ t.line = [] := by
  have := h.fits
  have := h.taken
  rw [h.e, h.w, ofNat_inj (by omega) (by omega), ← List.length_eq_zero_iff]
  omega

/-- Everything committed was read if the indices `r` and `w` are equal. -/
theorem drop_nil_iff : s.r = s.w ↔ t.committed.drop t.taken = [] := by
  have := h.fits
  have := h.taken
  rw [h.r, h.w, eq_comm, ofNat_inj h.taken (by omega), List.drop_eq_nil_iff]
  omega

/-- The last character of the line is erased. -/
theorem erase {line : List Byte} {c : Byte} (hline : t.line = line ++ [c]) :
    Rep { s with e := s.e - 1 } { t with line := line } ∧ s.buf (cell (s.e - 1)) = c := by
  have hle := h.taken
  have he : s.e - 1 = BitVec.ofNat 32 (t.committed.length + line.length) := by
    rw [h.e, hline, List.length_append, ← Nat.add_assoc]
    exact (congrArg (· - 1#32) (BitVec.ofNat_add _ 1)).trans (BitVec.add_sub_cancel _ _)
  have hholds := h.holds
  rw [hline, ← List.append_assoc] at hholds
  obtain ⟨hholds, hcell⟩ := hholds.retract (by rw [List.length_append]; omega)
  refine ⟨⟨hholds, hle, h.r, h.w, he⟩, ?_⟩
  rw [cell, he, toNat_ofNat_mod inputBufSize_dvd, ← List.length_append]
  exact hcell

/-- The loop of `C('U')`. -/
theorem killLoop {fuel : Nat} (hfuel : t.line.length = fuel) :
    (s.killLoop fuel).Rep { t with line := t.line.rdropWhile (· ≠ toChar newline) } := by
  induction fuel generalizing s t with
  | zero =>
    have hnil := List.length_eq_zero_iff.mp hfuel
    rw [Cons.killLoop, hnil, List.rdropWhile_nil, ← hnil]
    exact h
  | succ fuel ih =>
    obtain ⟨line, c, hline⟩ : ∃ line c, t.line = line ++ [c] :=
      ⟨_, _, (List.dropLast_append_getLast (List.ne_nil_of_length_eq_add_one hfuel)).symm⟩
    obtain ⟨hrep, hc⟩ := h.erase hline
    have hne : s.e ≠ s.w := fun he => by
      rw [h.line_nil_iff.mp he] at hfuel
      cases hfuel
    rw [Cons.killLoop, hc, hline]
    by_cases hnl : c = toChar newline
    · rw [if_neg (by simp [hnl]), List.rdropWhile_concat_neg _ _ _ (by simpa using hnl), ← hline]
      exact h
    · rw [if_pos ⟨hne, hnl⟩, List.rdropWhile_concat_pos _ _ _ (by simpa using hnl)]
      exact ih hrep (by rw [hline, List.length_append] at hfuel; simpa using hfuel)

/-- A character is typed that is stored, whether or not it ends the line. -/
theorem store (hroom : t.held < inputBufSize) (b : Byte) :
    Rep { s with buf := Function.update s.buf (cell s.e) b, e := s.e + 1 }
      { t with line := t.line ++ [b] } := by
  have hle := h.taken
  have hheld : t.committed.length + t.line.length - t.taken < 128 := hroom
  have hlen : (t.committed ++ t.line).length = t.committed.length + t.line.length := List.length_append
  have hcell : cell s.e = (t.committed ++ t.line).length % inputBufSize := by
    rw [cell, h.e, toNat_ofNat_mod inputBufSize_dvd, hlen]
  refine ⟨?_, hle, h.r, h.w, ?_⟩
  · rw [← List.append_assoc, hcell]
    exact h.holds.push (Nat.le_refl _) (by simp only; omega) (by simp only [inputBufSize]; omega)
  · simp only [h.e, List.length_append, List.length_singleton, ← Nat.add_assoc, BitVec.ofNat_add]
    rfl

/-- The line is committed. -/
theorem commit :
    Rep { s with w := s.e } { t with committed := t.committed ++ t.line, line := [] } := by
  have hlen : (t.committed ++ t.line).length = t.committed.length + t.line.length := List.length_append
  refine ⟨by simpa using h.holds, ?_, h.r, ?_, ?_⟩
  · rw [hlen]
    exact Nat.le_add_right_of_le h.taken
  · rw [hlen]
    exact h.e
  · rw [hlen]
    exact h.e

/-- `consoleintr`. -/
theorem consoleintr (c : Int) : (s.consoleintr c).Rep (t.type c) := by
  unfold Cons.consoleintr Tty.type
  split
  · exact h
  · split
    · exact h.killLoop h.sub_ew.symm
    · split
      · split
        next hne =>
          have hline : t.line ≠ [] := mt h.line_nil_iff.mpr hne
          exact (h.erase (List.dropLast_append_getLast hline).symm).1
        next he =>
          rw [h.line_nil_iff.mp (not_not.mp he)]
          have := h.line_nil_iff.mp (not_not.mp he)
          rw [List.dropLast_nil, ← this]
          exact h
      · rw [Cons.store, h.sub_er]
        split
        next hroom =>
          generalize (if c = carriageReturn then newline else c) = c'
          have hstore := h.store hroom.2 (toChar c')
          have hheld : Tty.held { t with line := t.line ++ [toChar c'] } = t.held + 1 := by
            have := h.taken
            simp only [Tty.held, List.length_append, List.length_singleton]
            omega
          dsimp only
          rw [hstore.sub_er, hheld]
          split
          · exact hstore.commit
          · exact hstore
        next => exact h

/-- The next committed character is read. -/
theorem pop (hne : s.r ≠ s.w) :
    t.committed.drop t.taken = s.buf (cell s.r) :: t.committed.drop (t.taken + 1) ∧
      Rep { s with r := s.r + 1 } { t with taken := t.taken + 1 } := by
  have hlt : t.taken < t.committed.length := by
    have := mt h.drop_nil_iff.mpr hne
    rw [List.drop_eq_nil_iff] at this
    omega
  have hhead := h.holds.head (by rw [List.length_append]; omega)
  rw [List.drop_append_of_le_length h.taken, List.drop_append_of_le_length hlt] at hhead
  refine ⟨?_, h.holds.advance (Nat.le_succ _) (by simp only [List.length_append]; omega), hlt, ?_, h.w, h.e⟩
  · rw [List.drop_eq_getElem_cons hlt, List.cons_append, List.cons.injEq] at hhead
    rw [cell, h.r, toNat_ofNat_mod inputBufSize_dvd, List.drop_eq_getElem_cons hlt, hhead.1]
  · simp only [h.r, BitVec.ofNat_add]
    rfl

/-- A part of a `consoleread` takes from what is committed. -/
theorem readLoop (killed : Bool) (target n : Nat) (got : List Byte) :
    let res := s.readLoop killed target n got
    let taken := Tty.take killed target n (t.committed.drop t.taken) got
    res.1 = taken.1 ∧ res.2.1 = taken.2.1 ∧ res.2.2.Rep { t with taken := t.taken + taken.2.2 } := by
  induction n generalizing s t got with
  | zero => exact ⟨rfl, rfl, h⟩
  | succ n ih =>
    unfold Cons.readLoop
    by_cases hempty : s.r = s.w
    · rw [if_pos hempty, h.drop_nil_iff.mp hempty]
      exact ⟨rfl, rfl, h⟩
    · obtain ⟨hdrop, hpop⟩ := h.pop hempty
      rw [if_neg hempty, hdrop, Tty.take]
      dsimp only
      split
      · refine ⟨rfl, rfl, ?_⟩
        by_cases hsome : n + 1 < target
        · rw [if_pos hsome, if_pos hsome, BitVec.add_sub_cancel]
          exact h
        · rw [if_neg hsome, if_neg hsome]
          exact hpop
      · split
        · exact ⟨rfl, rfl, hpop⟩
        · obtain ⟨h₁, h₂, h₃⟩ := ih hpop (got ++ [s.buf (cell s.r)])
          have hassoc : ∀ m, t.taken + (m + 1) = t.taken + 1 + m := by omega
          refine ⟨h₁, h₂, ?_⟩
          rw [hassoc]
          exact h₃

end

end Cons.Rep

/-- The machine and what it implements. -/
structure ConsSys.Rep (s : ConsSys) (t : Tty) : Prop where
  cons : s.cons.Rep t
  reader : s.reader = t.reader
  reads : s.reads = t.reads

theorem ConsSys.rep_init (buf : Nat → Byte) : (ConsSys.init buf).Rep .init :=
  ⟨⟨holds_nil _, Nat.le_refl _, rfl, rfl, rfl⟩, rfl, rfl⟩

/-- A step of the console is a step of the line discipline. -/
theorem ConsSys.Rep.step {s s' : ConsSys} {t : Tty} {e : ConsEvent} (h : s.Rep t)
    (hs : consStep s e = some s') : ∃ t', t.step e = some t' ∧ s'.Rep t' := by
  obtain ⟨committed, taken, line, _, _⟩ := t
  obtain ⟨hcons, rfl, rfl⟩ := h
  cases e with
  | intr c =>
    cases hs
    refine ⟨_, rfl, hcons.consoleintr c, ?_, ?_⟩
    all_goals unfold Tty.type; grind
  | read n =>
    cases hr : s.reader with
    | none =>
      simp only [consStep, Tty.step, hr] at hs ⊢
      by_cases hn : n ≤ 0
      · rw [if_pos hn] at hs ⊢
        cases hs
        exact ⟨_, rfl, ⟨hcons.holds, hcons.taken, hcons.r, hcons.w, hcons.e⟩, rfl, rfl⟩
      · rw [if_neg hn] at hs ⊢
        cases hs
        exact ⟨_, rfl, ⟨hcons.holds, hcons.taken, hcons.r, hcons.w, hcons.e⟩, rfl, rfl⟩
    | some rd =>
      simp only [consStep, hr] at hs
      cases hs
  | run killed =>
    cases hr : s.reader with
    | none =>
      simp only [consStep, hr] at hs
      cases hs
    | some rd =>
      simp only [consStep, Tty.step, hr] at hs ⊢
      cases hs
      obtain ⟨hres, hgot, hrep⟩ := hcons.readLoop killed rd.target rd.n rd.got
      refine ⟨_, rfl, ⟨hrep.holds, hrep.taken, hrep.r, hrep.w, hrep.e⟩, ?_, ?_⟩
      · rw [hres, hgot]
      · rw [hres, hgot]

/-- A run of the console is a run of the line discipline. -/
theorem ConsSys.Rep.run {s s' : ConsSys} {t : Tty} {es : List ConsEvent} (h : s.Rep t)
    (hs : Runs.run consStep s es = some s') : ∃ t', Runs.run Tty.step t es = some t' ∧ s'.Rep t' := by
  induction es generalizing s t with
  | nil =>
    cases hs
    exact ⟨t, rfl, h⟩
  | cons e es ih =>
    obtain ⟨s₁, hs₁, hs⟩ := Option.bind_eq_some_iff.mp hs
    obtain ⟨t₁, ht₁, h₁⟩ := h.step hs₁
    obtain ⟨t', ht', h'⟩ := ih h₁ hs
    exact ⟨t', by rw [Runs.run_cons_of_step ht₁, ht'], h'⟩

/-! ## What reads return -/

/-- A read returns at most `n` characters or one line, and no `C('D')`. -/
structure ConsRead.Valid (x : ConsRead) : Prop where
  length : x.bytes.length ≤ x.n.toNat
  noCtrlD : toChar ctrlD ∉ x.bytes
  oneLine : toChar newline ∉ x.bytes.dropLast
  stop : match x.stop with
    | .full => x.bytes.length = x.n.toNat
    | .newline => x.bytes.getLast? = some (toChar newline)
    | .eof | .killed => x.bytes.length < x.n.toNat ∧ toChar newline ∉ x.bytes

/-- A read that stops early has copied neither. -/
theorem ConsRead.Valid.short {target : Nat} {got : List Byte} {stop : ReadEnd} (hlen : got.length < target)
    (hd : toChar ctrlD ∉ got) (hnl : toChar newline ∉ got) (hstop : stop = .eof ∨ stop = .killed) :
    ConsRead.Valid ⟨target, got, stop⟩ := by
  refine ⟨by simpa using hlen.le, hd, mt (List.dropLast_subset got ·) hnl, ?_⟩
  rcases hstop with rfl | rfl
  · exact ⟨by simpa using hlen, hnl⟩
  · exact ⟨by simpa using hlen, hnl⟩

/-- The committed characters a read takes: those it copies out, or the `C('D')` at its start. -/
def ConsRead.consumed (x : ConsRead) : List Byte :=
  x.bytes ++ if x.stop = .eof ∧ x.bytes = [] then [toChar ctrlD] else []

/-- What a read in progress has copied: less than it was asked for, and no end. -/
structure ConsReader.Valid (rd : ConsReader) : Prop where
  length : rd.got.length + rd.n = rd.target
  pos : 0 < rd.n
  noCtrlD : toChar ctrlD ∉ rd.got
  noNewline : toChar newline ∉ rd.got

namespace Tty

/-- A part of a read takes the characters it copies out, and the `C('D')` it starts with. -/
theorem take_spec (killed : Bool) (target : Nat) {n : Nat} {input got : List Byte}
    (hlen : got.length + n = target) (hd : toChar ctrlD ∉ got) (hnl : toChar newline ∉ got) :
    ∃ bs, (take killed target n input got).2.1 = got ++ bs ∧
      (take killed target n input got).2.2 ≤ input.length ∧
      match (take killed target n input got).1 with
      | .inl stop => ConsRead.Valid ⟨target, got ++ bs, stop⟩ ∧
          input.take (take killed target n input got).2.2 =
            bs ++ if stop = .eof ∧ got ++ bs = [] then [toChar ctrlD] else []
      | .inr n' => ConsReader.Valid ⟨target, n', got ++ bs⟩ ∧
          input.take (take killed target n input got).2.2 = bs := by
  induction n generalizing input got with
  | zero =>
    have hfull : ConsRead.Valid ⟨target, got ++ [], .full⟩ := by
      rw [List.append_nil]
      exact ⟨by simp; omega, hd, mt (List.dropLast_subset got ·) hnl, by simp; omega⟩
    exact ⟨[], (List.append_nil got).symm, Nat.zero_le _, hfull, by simp [take]⟩
  | succ n ih =>
    cases input with
    | nil =>
      refine ⟨[], (List.append_nil got).symm, Nat.le_refl _, ?_⟩
      have hwait : ConsReader.Valid ⟨target, n + 1, got ++ []⟩ := by
        rw [List.append_nil]
        exact ⟨hlen, Nat.succ_pos n, hd, hnl⟩
      have hkilled : ConsRead.Valid ⟨target, got ++ [], .killed⟩ := by
        rw [List.append_nil]
        exact .short (by omega) hd hnl (.inr rfl)
      cases killed
      · exact ⟨hwait, rfl⟩
      · exact ⟨hkilled, rfl⟩
    | cons c input =>
      rw [take]
      split
      next hc =>
        -- end of file: the character is taken only at the start of a read
        have heof : ConsRead.Valid ⟨target, got ++ [], .eof⟩ := by
          rw [List.append_nil]
          exact .short (by omega) hd hnl (.inl rfl)
        refine ⟨[], (List.append_nil got).symm, ?_, heof, ?_⟩
        · dsimp only
          split <;> simp
        · cases got with
          | nil =>
            have hfirst : ¬n + 1 < target := by
              simp only [List.length_nil] at hlen
              omega
            simp [hfirst, hc]
          | cons g got =>
            have hlater : n + 1 < target := by
              simp only [List.length_cons] at hlen
              omega
            simp [hlater]
      next hc =>
        have hd' : toChar ctrlD ∉ got ++ [c] := by
          simp only [List.mem_append, List.mem_singleton, not_or]
          exact ⟨hd, fun h => hc h.symm⟩
        split
        next hcn =>
          refine ⟨[c], rfl, by simp, ⟨by simp; omega, hd', ?_, ?_⟩, by simp⟩
          · rwa [List.dropLast_concat]
          · simp [hcn]
        next hcn =>
          have hnl' : toChar newline ∉ got ++ [c] := by
            simp only [List.mem_append, List.mem_singleton, not_or]
            exact ⟨hnl, fun h => hcn h.symm⟩
          have hlen' : (got ++ [c]).length + n = target := by
            rw [List.length_append, List.length_singleton]; omega
          obtain ⟨bs, hbs, hle, hrest⟩ := @ih input _ hlen' hd' hnl'
          refine ⟨c :: bs, by rw [hbs]; simp, by simpa using hle, ?_⟩
          have hcons : got ++ [c] ++ bs = got ++ c :: bs := by simp
          rw [hcons] at hrest
          dsimp only
          split at hrest
          next stop =>
            obtain ⟨hvalid, htake⟩ := hrest
            exact ⟨hvalid, by rw [List.take_succ_cons, htake]; rfl⟩
          next n' =>
            obtain ⟨hvalid, htake⟩ := hrest
            exact ⟨hvalid, by rw [List.take_succ_cons, htake]⟩

/-- What the read in progress has copied. -/
def inProgress (t : Tty) : List Byte := (t.reader.map ConsReader.got).getD []

/-- The reads take the committed characters in order. -/
structure Inv (t : Tty) : Prop where
  order : t.committed.take t.taken = t.reads.flatMap ConsRead.consumed ++ t.inProgress
  taken : t.taken ≤ t.committed.length
  reads : ∀ x ∈ t.reads, x.Valid
  reader : ∀ rd ∈ t.reader, rd.Valid

theorem inv_init : init.Inv := ⟨rfl, Nat.le_refl _, nofun, nofun⟩

/-- Typing only adds to what is committed. -/
theorem type_frame (t : Tty) (c : Int) :
    (∃ more, (t.type c).committed = t.committed ++ more) ∧ (t.type c).taken = t.taken ∧
      (t.type c).reader = t.reader ∧ (t.type c).reads = t.reads := by
  unfold type
  dsimp only
  split
  · exact ⟨⟨[], by simp⟩, rfl, rfl, rfl⟩
  · split
    · exact ⟨⟨[], by simp⟩, rfl, rfl, rfl⟩
    · split
      · exact ⟨⟨[], by simp⟩, rfl, rfl, rfl⟩
      · generalize (if c = carriageReturn then newline else c) = c'
        split
        · split
          · exact ⟨⟨_, rfl⟩, rfl, rfl, rfl⟩
          · exact ⟨⟨[], by simp⟩, rfl, rfl, rfl⟩
        · exact ⟨⟨[], by simp⟩, rfl, rfl, rfl⟩

/-- Backspace and kill-line erase the end of the current line. -/
theorem type_erase (t : Tty) {c : Int} (hc : c = ctrlU ∨ c = ctrlH ∨ c = delete) :
    (t.type c).committed = t.committed ∧ (t.type c).line <+: t.line := by
  rcases hc with rfl | rfl | rfl
  · exact ⟨rfl, List.rdropWhile_prefix _ _⟩
  · exact ⟨rfl, List.dropLast_prefix _⟩
  · exact ⟨rfl, List.dropLast_prefix _⟩

theorem Inv.type {t : Tty} (h : t.Inv) (c : Int) : (t.type c).Inv := by
  obtain ⟨⟨more, hcommitted⟩, htaken, hreader, hreads⟩ := t.type_frame c
  have hin : (t.type c).inProgress = t.inProgress := by rw [inProgress, hreader, inProgress]
  refine ⟨?_, ?_, by rw [hreads]; exact h.reads, by rw [hreader]; exact h.reader⟩
  · rw [hcommitted, htaken, hreads, hin, List.take_append_of_le_length h.taken, h.order]
  · rw [hcommitted, htaken, List.length_append]
    exact Nat.le_add_right_of_le h.taken

/-- A part of a read. -/
theorem Inv.take {t : Tty} {rd : ConsReader} (h : t.Inv) (hr : t.reader = some rd) (killed : Bool) :
    let res := Tty.take killed rd.target rd.n (t.committed.drop t.taken) rd.got
    let next := settle rd (res.1, res.2.1) t.reads
    Inv { t with taken := t.taken + res.2.2, reader := next.1, reads := next.2 } := by
  have hrd := h.reader rd hr
  have horder : t.committed.take t.taken = t.reads.flatMap ConsRead.consumed ++ rd.got := by
    rw [h.order, inProgress, hr]
    rfl
  obtain ⟨bs, hbs, hle, hrest⟩ :=
    @take_spec killed rd.target rd.n (t.committed.drop t.taken) _ hrd.length hrd.noCtrlD hrd.noNewline
  rw [List.length_drop] at hle
  have htaken := h.taken
  dsimp only
  generalize Tty.take killed rd.target rd.n (t.committed.drop t.taken) rd.got = res at *
  obtain ⟨res, got, m⟩ := res
  obtain rfl : got = rd.got ++ bs := hbs
  have hm : t.taken + m ≤ t.committed.length := by
    dsimp only at hle
    omega
  cases res with
  | inl stop =>
    obtain ⟨hvalid, htake⟩ := hrest
    refine ⟨?_, hm, ?_, nofun⟩
    · simp only [settle, inProgress, List.flatMap_append, List.flatMap_cons, List.flatMap_nil,
        ConsRead.consumed, List.append_nil, Option.map_none, Option.getD_none]
      rw [List.take_add, htake, horder]
      simp only [List.append_assoc]
    · intro x hx
      rcases List.mem_append.mp hx with hx | hx
      · exact h.reads x hx
      · rw [List.mem_singleton.mp hx]
        exact hvalid
  | inr n =>
    obtain ⟨hvalid, htake⟩ := hrest
    refine ⟨?_, hm, h.reads, ?_⟩
    · simp only [settle, inProgress, Option.map_some, Option.getD_some]
      rw [List.take_add, htake, horder, List.append_assoc]
    · rintro _ ⟨⟩
      exact hvalid

theorem Inv.step {t t' : Tty} {e : ConsEvent} (h : t.Inv) (hs : t.step e = some t') : t'.Inv := by
  cases e with
  | intr c =>
    cases hs
    exact h.type c
  | read n =>
    cases hr : t.reader with
    | some rd =>
      simp only [Tty.step, hr] at hs
      cases hs
    | none =>
      have horder := h.order
      rw [inProgress, hr] at horder
      simp only [Tty.step, hr] at hs
      split at hs
      next hn =>
        cases hs
        refine ⟨?_, h.taken, ?_, nofun⟩
        · simpa [inProgress, ConsRead.consumed] using horder
        · intro x hx
          rcases List.mem_append.mp hx with hx | hx
          · exact h.reads x hx
          · rw [List.mem_singleton.mp hx]
            exact ⟨Nat.zero_le _, nofun, nofun, (Int.toNat_of_nonpos hn).symm⟩
      next hn =>
        cases hs
        refine ⟨?_, h.taken, h.reads, ?_⟩
        · simpa [inProgress] using horder
        · rintro _ ⟨⟩
          exact ⟨Nat.zero_add _, by simp only; omega, nofun, nofun⟩
  | run killed =>
    cases hr : t.reader with
    | none =>
      simp only [Tty.step, hr] at hs
      cases hs
    | some rd =>
      simp only [Tty.step, hr] at hs
      cases hs
      exact h.take hr killed

end Tty

/-! ## The console -/

/-- What holds of the console in a state that the line discipline describes as `t`. -/
structure ConsSys.Disciplined (s : ConsSys) (t : Tty) : Prop where
  ew : (s.cons.e - s.cons.w).toNat = t.line.length
  wr : (s.cons.w - s.cons.r).toNat = t.committed.length - t.taken
  er : (s.cons.e - s.cons.r).toNat = t.held
  bounds : t.line.length ≤ inputBufSize ∧ t.committed.length - t.taken ≤ inputBufSize ∧
    t.held ≤ inputBufSize
  /-- backspace and kill-line remove only characters of the current line -/
  erase : ∀ c, c = ctrlU ∨ c = ctrlH ∨ c = delete →
    (s.cons.consoleintr c).w = s.cons.w ∧ (s.cons.consoleintr c).r = s.cons.r ∧
      (s.cons.consoleintr c).buf = s.cons.buf ∧
      ∃ line, line <+: t.line ∧ ((s.cons.consoleintr c).e - s.cons.w).toNat = line.length
  /-- the reads take the committed characters in order -/
  order : t.committed.take t.taken = s.reads.flatMap ConsRead.consumed ++ t.inProgress
  reads : ∀ x ∈ s.reads, x.Valid

theorem Cons.killLoop_frame (fuel : Nat) (s : Cons) :
    (killLoop fuel s).w = s.w ∧ (killLoop fuel s).r = s.r ∧ (killLoop fuel s).buf = s.buf := by
  induction fuel generalizing s with
  | zero => exact ⟨rfl, rfl, rfl⟩
  | succ fuel ih =>
    rw [killLoop]
    split
    · exact ih _
    · exact ⟨rfl, rfl, rfl⟩

theorem Cons.consoleintr_erase (s : Cons) {c : Int} (hc : c = ctrlU ∨ c = ctrlH ∨ c = delete) :
    (s.consoleintr c).w = s.w ∧ (s.consoleintr c).r = s.r ∧ (s.consoleintr c).buf = s.buf := by
  rcases hc with rfl | hc
  · exact killLoop_frame _ s
  · have hne : c ≠ ctrlP ∧ c ≠ ctrlU := by
      rcases hc with rfl | rfl <;> decide
    rw [Cons.consoleintr, if_neg hne.1, if_neg hne.2, if_pos hc]
    split <;> exact ⟨rfl, rfl, rfl⟩

theorem ConsSys.Rep.disciplined {s : ConsSys} {t : Tty} (h : s.Rep t) (hinv : t.Inv) :
    s.Disciplined t := by
  have hfits := h.cons.fits
  have htaken := h.cons.taken
  refine ⟨h.cons.sub_ew, h.cons.sub_wr, h.cons.sub_er, ?_, fun c hc => ?_, ?_, ?_⟩
  · simp only [Tty.held, inputBufSize]
    omega
  · obtain ⟨hw, hr, hbuf⟩ := s.cons.consoleintr_erase hc
    have hew := (h.cons.consoleintr c).sub_ew
    rw [hw] at hew
    exact ⟨hw, hr, hbuf, _, (t.type_erase hc).2, hew⟩
  · rw [h.reads]
    exact hinv.order
  · rw [h.reads]
    exact hinv.reads

/-- Every run of the console follows the line discipline. -/
theorem console_disciplined (buf : Nat → Byte) (es : List ConsEvent) (s : ConsSys)
    (h : Runs.run consStep (.init buf) es = some s) :
    ∃ t, Runs.run Tty.step .init es = some t ∧ s.Disciplined t := by
  obtain ⟨t, ht, hrep⟩ := (ConsSys.rep_init buf).run h
  exact ⟨t, ht, hrep.disciplined (Runs.invariant_of_step (fun _ _ _ h hs => h.step hs) Tty.inv_init ht)⟩

/-- `x`, backspace, `a`, newline, end of file: one read returns the line and the next one nothing. -/
def lineThenEof : List ConsEvent :=
  [.intr 120, .intr 8, .intr 97, .intr 13, .intr 4, .read 10, .run false, .read 10, .run false]

theorem console_disciplined_lineThenEof :
    ∃ s, Runs.run consStep (.init fun _ => 0) lineThenEof = some s ∧
      s.reads.map ConsRead.bytes = [[97, 10], []] ∧
      ∃ t, Runs.run Tty.step .init lineThenEof = some t ∧ s.Disciplined t := by
  have hreads : (Runs.run consStep (.init fun _ => 0) lineThenEof).map
      (fun s => s.reads.map ConsRead.bytes) = some [[97, 10], []] := by decide +kernel
  obtain ⟨s, hs, hbytes⟩ := Option.map_eq_some_iff.mp hreads
  exact ⟨s, hs, hbytes, console_disciplined _ _ _ hs⟩

end MiniOS
