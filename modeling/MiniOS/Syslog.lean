import MiniOS.Riscv
import MiniOS.Lib.Ring

/-!
# MiniOS.Syslog

The kernel log of `kernel/printf.c`: `putc_log` writes to a circular buffer and
`readsyslog` reads from it.  `Stream` says what the log is for: the sequence of
all bytes logged, of which a reader gets the newest that fit the buffer.
-/

namespace MiniOS

open Ring

/-- `LOG_BUF_SIZE`. -/
def logBufSize : Nat := 4096

/-- The value of an `int` that is assigned `x`. -/
def toInt (x : Int) : Int := (x + 2 ^ 31) % 2 ^ 32 - 2 ^ 31

/-- `logkeeper`. -/
structure Logkeeper where
  buf : Nat → Byte
  r : Int
  w : Int

namespace Logkeeper

/-- The cell of `buf` at `i % LOG_BUF_SIZE`; `i` is not negative. -/
def cellOf (i : Int) : Nat := (i.tmod logBufSize).toNat

/-- `putc_log`. -/
def putcLog (s : Logkeeper) (c : Byte) : Logkeeper :=
  let buf := Function.update s.buf (cellOf s.w) c
  let w := toInt (s.w + 1)
  -- the write index has caught up: the oldest byte is given up
  if logBufSize < toInt (w - s.r) then ⟨buf, toInt (w - logBufSize), w⟩ else ⟨buf, s.r, w⟩

/-- The loop of `readsyslog` with `left` bytes of room after `n` bytes.  `ok` tells
whether the `copyout` of a byte succeeds; `none` is -1. -/
def readLoop (ok : Nat → Bool) : Nat → Nat → Logkeeper → List Byte → Option (List Byte) × Logkeeper
  | 0, _, s, acc => (some acc, s)
  | left + 1, n, s, acc =>
    if s.r < s.w then
      let c := s.buf (cellOf s.r)
      if ok n then readLoop ok left (n + 1) { s with r := toInt (s.r + 1) } (acc ++ [c]) else (none, s)
    else (some acc, s)

/-- `readsyslog`. -/
def readsyslog (s : Logkeeper) (ok : Nat → Bool) (maxlen : Int) : Option (List Byte) × Logkeeper :=
  readLoop ok maxlen.toNat 0 s []

/-- `logkeeper` after `printfinit`. -/
def init (buf : Nat → Byte) : Logkeeper := ⟨buf, 0, 0⟩

end Logkeeper

/-- A use of the log; all copies succeed. -/
inductive SyslogEvent
  | putc (c : Byte)
  | read (maxlen : Int)

/-- The bytes that an event logs. -/
def SyslogEvent.logged : SyslogEvent → List Byte
  | .putc c => [c]
  | .read _ => []

/-- What the reads among the events return. -/
def Logkeeper.reads (s : Logkeeper) : List SyslogEvent → List (Option (List Byte))
  | [] => []
  | .putc c :: es => reads (s.putcLog c) es
  | .read maxlen :: es =>
    let r := s.readsyslog (fun _ => true) maxlen
    r.1 :: reads r.2 es

/-! ## What the log is for -/

/-- All bytes logged, and the number of bytes up to the last one that was read. -/
structure Stream where
  hist : List Byte
  pos : Nat

namespace Stream

/-- How many of the last bytes are retained and unread. -/
def kept (t : Stream) : Nat := min logBufSize (t.hist.length - t.pos)

/-- The retained unread bytes: the last ones logged. -/
def retained (t : Stream) : List Byte := t.hist.drop (t.hist.length - t.kept)

def putc (t : Stream) (c : Byte) : Stream := { t with hist := t.hist ++ [c] }

/-- The oldest retained bytes are read. -/
def read (t : Stream) (maxlen : Nat) : List Byte × Stream :=
  let bs := t.retained.take maxlen
  (bs, if bs = [] then t else { t with pos := t.hist.length - t.kept + bs.length })

def reads (t : Stream) : List SyslogEvent → List (List Byte)
  | [] => []
  | .putc c :: es => reads (t.putc c) es
  | .read maxlen :: es => (t.read maxlen.toNat).1 :: reads (t.read maxlen.toNat).2 es

end Stream

/-- Each read is a part of `hist` that starts at or after the end of the read before. -/
def Windows (hist : List Byte) : Nat → List (List Byte) → Prop
  | _, [] => True
  | pos, bs :: rest =>
    ∃ start, pos ≤ start ∧ bs = (hist.drop start).take bs.length ∧
      Windows hist (if bs = [] then pos else start + bs.length) rest

/-! ## The buffer implements it -/

theorem toInt_eq {x : Int} (h0 : -2 ^ 31 ≤ x) (h : x < 2 ^ 31) : toInt x = x := by
  unfold toInt
  omega

theorem Logkeeper.cellOf_natCast (n : Nat) : cellOf n = n % logBufSize := by
  unfold cellOf
  rw [← Int.ofNat_tmod, Int.toNat_natCast]

/-- The buffer has the retained bytes; the read index is the first of them. -/
structure Logkeeper.Rep (s : Logkeeper) (t : Stream) : Prop where
  holds : Holds logBufSize s.buf t.hist s.r.toNat
  w : s.w = t.hist.length
  r : s.r = (t.hist.length - t.kept : Nat)
  pos : t.pos ≤ t.hist.length

namespace Logkeeper

variable {s : Logkeeper} {t : Stream}

theorem Rep.init (buf : Nat → Byte) : (init buf).Rep ⟨[], 0⟩ := by
  refine ⟨holds_nil _, rfl, ?_, Nat.le_refl _⟩
  simp [Logkeeper.init, Stream.kept]

theorem Rep.putcLog (h : s.Rep t) (hlen : t.hist.length + 1 < 2 ^ 31) (c : Byte) :
    (s.putcLog c).Rep (t.putc c) := by
  obtain ⟨hholds, hw, hr, hpos⟩ := h
  have hkept : t.kept = min 4096 (t.hist.length - t.pos) := rfl
  have hkept' : (t.putc c).kept = min 4096 (t.hist.length + 1 - t.pos) := by
    simp only [Stream.kept, Stream.putc, List.length_append, List.length_singleton]
    rfl
  have hlen' : (t.putc c).hist.length = t.hist.length + 1 := by
    simp only [Stream.putc, List.length_append, List.length_singleton]
  have hw' : toInt (s.w + 1) = t.hist.length + 1 := by
    rw [hw, toInt_eq (by omega) (by omega)]
  have hbuf : cellOf s.w = t.hist.length % logBufSize := by rw [hw, cellOf_natCast]
  have hsize : (logBufSize : Int) = 4096 := rfl
  unfold Logkeeper.putcLog
  dsimp only
  rw [hw', hbuf, hsize, toInt_eq (by omega) (by omega)]
  split
  · next hfull =>
      rw [toInt_eq (by omega) (by omega)]
      refine ⟨?_, by rw [hlen']; rfl, ?_, by rw [hlen']; exact Nat.le_succ_of_le hpos⟩
      · have hr' : ((t.hist.length + 1 : Int) - 4096).toNat = t.hist.length + 1 - 4096 := by omega
        dsimp only
        rw [hr']
        exact hholds.push (by omega) (by omega) (by simp only [logBufSize]; omega)
      · rw [hlen', hkept']
        dsimp only
        omega
  · next hroom =>
      refine ⟨?_, by rw [hlen']; rfl, ?_, by rw [hlen']; exact Nat.le_succ_of_le hpos⟩
      · exact hholds.push (Nat.le_refl _) (Nat.le_succ_of_le hholds.le) (by simp only [logBufSize]; omega)
      · rw [hlen', hkept']
        dsimp only
        omega

/-- The loop of `readsyslog` from index `r` on. -/
theorem readLoop_eq {hist : List Byte} {r : Nat} (hholds : Holds logBufSize s.buf hist r)
    (hw : s.w = hist.length) (hr : s.r = r) (hlen : hist.length < 2 ^ 31) (left n : Nat) (acc : List Byte) :
    readLoop (fun _ => true) left n s acc = (some (acc ++ (hist.drop r).take left),
      { s with r := (r + ((hist.drop r).take left).length : Nat) }) := by
  induction left generalizing n s r acc with
  | zero => simp [readLoop, ← hr]
  | succ left ih =>
    have hle := hholds.le
    unfold readLoop
    by_cases hlt : r < hist.length
    · have hcell : s.buf (cellOf s.r) = s.buf (r % logBufSize) := by rw [hr, cellOf_natCast]
      rw [if_pos (by omega), if_pos rfl, hcell, hr, toInt_eq (by omega) (by omega),
        ih (s := { s with r := (r : Int) + 1 }) (r := r + 1) (hholds.advance (Nat.le_succ r) hlt) hw rfl, hholds.head hlt, List.take_succ_cons,
        List.append_assoc, List.singleton_append, List.length_cons]
      congr 3
      omega
    · rw [if_neg (by omega), List.drop_eq_nil_of_le (by omega)]
      simp [← hr]

theorem Rep.readsyslog (h : s.Rep t) (hlen : t.hist.length < 2 ^ 31) (maxlen : Int) :
    (s.readsyslog (fun _ => true) maxlen).1 = some (t.read maxlen.toNat).1 ∧
      (s.readsyslog (fun _ => true) maxlen).2.Rep (t.read maxlen.toNat).2 := by
  obtain ⟨hholds, hw, hr, hpos⟩ := h
  have hstart : s.r.toNat = t.hist.length - t.kept := by rw [hr, Int.toNat_natCast]
  rw [hstart] at hholds
  have hkept : t.kept = min 4096 (t.hist.length - t.pos) := rfl
  have heq := readLoop_eq hholds hw hr hlen maxlen.toNat 0 []
  rw [List.nil_append] at heq
  have hread : (t.read maxlen.toNat).1 = (t.hist.drop (t.hist.length - t.kept)).take maxlen.toNat := rfl
  have hcount : ((t.hist.drop (t.hist.length - t.kept)).take maxlen.toNat).length ≤ t.kept := by
    rw [List.length_take, List.length_drop]
    omega
  rw [Logkeeper.readsyslog, heq]
  refine ⟨by rw [hread], ?_⟩
  unfold Stream.read
  dsimp only
  have hret : t.retained = t.hist.drop (t.hist.length - t.kept) := rfl
  rw [hret]
  generalize hbs : (t.hist.drop (t.hist.length - t.kept)).take maxlen.toNat = bs at hcount
  split
  · next hnil =>
      rw [hnil, List.length_nil, Nat.add_zero]
      refine ⟨by rwa [Int.toNat_natCast], hw, rfl, hpos⟩
  · next hcons =>
      have hbpos : 0 < bs.length := List.length_pos_iff.mpr hcons
      have hkept' : (⟨t.hist, t.hist.length - t.kept + bs.length⟩ : Stream).kept = t.kept - bs.length := by
        simp only [Stream.kept, logBufSize]
        omega
      refine ⟨?_, hw, ?_, by simp only; omega⟩
      · rw [Int.toNat_natCast]
        exact hholds.advance (by omega) (by omega)
      · rw [hkept']
        simp only
        omega

/-- The log and the stream return the same from related states. -/
theorem Rep.reads (h : s.Rep t) {es : List SyslogEvent}
    (hlen : t.hist.length + (es.flatMap SyslogEvent.logged).length < 2 ^ 31) :
    s.reads es = (t.reads es).map some := by
  induction es generalizing s t with
  | nil => rfl
  | cons e es ih =>
    rw [List.flatMap_cons, List.length_append] at hlen
    cases e with
    | putc c =>
      simp only [SyslogEvent.logged, List.length_singleton] at hlen
      refine ih (h.putcLog (by omega) c) ?_
      simp only [Stream.putc, List.length_append, List.length_singleton]
      omega
    | read maxlen =>
      simp only [SyslogEvent.logged, List.length_nil] at hlen
      obtain ⟨hr, hrep⟩ := h.readsyslog (by omega) maxlen
      have hhist : (t.read maxlen.toNat).2.hist = t.hist := by
        unfold Stream.read
        dsimp only
        split <;> rfl
      simp only [Logkeeper.reads, Stream.reads, List.map_cons, hr]
      rw [ih hrep (by rw [hhist]; omega)]

end Logkeeper

/-! ## The reads as parts of the stream -/

theorem take_drop_append {hist more bs : List Byte} {start : Nat}
    (h : bs = (hist.drop start).take bs.length) : bs = ((hist ++ more).drop start).take bs.length := by
  have hlen := congrArg List.length h
  rw [List.length_take, List.length_drop] at hlen
  rw [List.drop_append, List.take_append_of_le_length (by rw [List.length_drop]; omega)]
  exact h

namespace Stream

/-- Reads of a stream are parts of all that is ever logged, one after the other. -/
theorem windows_reads (t : Stream) (es : List SyslogEvent) :
    Windows (t.hist ++ es.flatMap SyslogEvent.logged) t.pos (t.reads es) := by
  induction es generalizing t with
  | nil => trivial
  | cons e es ih =>
    cases e with
    | putc c =>
      have := ih (t.putc c)
      simp only [putc, List.append_assoc] at this
      exact this
    | read maxlen =>
      have hkept : t.kept = min 4096 (t.hist.length - t.pos) := rfl
      have hih := ih (t.read maxlen.toNat).2
      have hhist : (t.read maxlen.toNat).2.hist = t.hist := by
        unfold Stream.read
        dsimp only
        split <;> rfl
      rw [hhist] at hih
      simp only [List.flatMap_cons, SyslogEvent.logged, List.nil_append, reads]
      by_cases hbs : (t.read maxlen.toNat).1 = []
      · have hpos : (t.read maxlen.toNat).2.pos = t.pos := congrArg Stream.pos (if_pos hbs)
        rw [hpos] at hih
        exact ⟨t.pos, Nat.le_refl _, by rw [hbs]; rfl, by rwa [if_pos hbs]⟩
      · have hpos : (t.read maxlen.toNat).2.pos =
            t.hist.length - t.kept + (t.read maxlen.toNat).1.length := congrArg Stream.pos (if_neg hbs)
        have hread : (t.read maxlen.toNat).1 = (t.hist.drop (t.hist.length - t.kept)).take maxlen.toNat := rfl
        have hlen : 0 < (t.read maxlen.toNat).1.length := List.length_pos_iff.mpr hbs
        rw [hpos] at hih
        refine ⟨t.hist.length - t.kept, ?_, take_drop_append ?_, by rwa [if_neg hbs]⟩
        · rw [hread, List.length_take, List.length_drop] at hlen
          omega
        · rw [hread, List.length_take, ← List.take_eq_take_min]

end Stream

/-- Each read returns the oldest retained bytes that fit, and the reads together are the bytes logged
in their order, with gaps only where the oldest unread bytes were overwritten. -/
theorem syslog_reads (buf : Nat → Byte) (es : List SyslogEvent)
    (h : (es.flatMap SyslogEvent.logged).length < 2 ^ 31) :
    (Logkeeper.init buf).reads es = (Stream.reads ⟨[], 0⟩ es).map some ∧
      Windows (es.flatMap SyslogEvent.logged) 0 (Stream.reads ⟨[], 0⟩ es) :=
  ⟨(Logkeeper.Rep.init buf).reads (by simpa using h), Stream.windows_reads ⟨[], 0⟩ es⟩

/-- Three bytes in two reads. -/
theorem syslog_reads_twice :
    (Logkeeper.init fun _ => 0).reads [.putc 65, .putc 66, .read 1, .putc 67, .read 10] =
      [some [65], some [66, 67]] :=
  (syslog_reads (fun _ => 0) [.putc 65, .putc 66, .read 1, .putc 67, .read 10] (by decide)).1.trans
    (by decide)

end MiniOS
