import MiniOS.Grep
import Mathlib.Data.List.Basic

/-!
# MiniOS.Grep.Lines

`grep` of `user/grep.c`.  A read puts up to `sizeof(buf) - m - 1` bytes after the
`m` bytes that are kept from the one before.  A line is matched where it lies, with
a 0 in the place of its newline.  With 1023 bytes kept the next read asks for no
byte, and its 0 ends the loop; the bytes after the last newline are never matched.
-/

namespace MiniOS.Grep

def newline : Byte := 10

/-- `sizeof(buf)`. -/
abbrev bufSize : Nat := 1024

/-! ## The program -/

/-- The C string at `p`. -/
def cstr (buf : List Byte) (p : Nat) : List Byte := (buf.drop p).takeWhile (· ≠ 0)

/-- `strchr(p, '\n')`. -/
def strchr (buf : List Byte) (p : Nat) : Option Nat :=
  let i := (cstr buf p).idxOf newline
  if i < (cstr buf p).length then some (p + i) else none

variable {buf l rest : List Byte} {p : Nat} {ls : List (List Byte)}

theorem strchr_lt {q : Nat} (h : strchr buf p = some q) : p ≤ q ∧ q < buf.length := by
  have hle : (cstr buf p).length ≤ (buf.drop p).length := (List.takeWhile_prefix _).length_le
  rw [List.length_drop] at hle
  simp only [strchr, Option.ite_none_right_eq_some, Option.some.injEq] at h
  omega

/-- The loop over the lines in the buffer: the buffer after it, `p` after it, and what is written. -/
def scanLines (re buf : List Byte) (p : Nat) : List Byte × Nat × List Byte :=
  match h : strchr buf p with
  | none => (buf, p, [])
  | some q =>
    let buf := buf.set q 0
    if matchText re (cstr buf p) then
      let buf := buf.set q newline
      let r := scanLines re buf (q + 1)
      (r.1, r.2.1, (buf.drop p).take (q + 1 - p) ++ r.2.2)
    else scanLines re buf (q + 1)
termination_by buf.length - p
decreasing_by
  all_goals
    have := strchr_lt h
    simp only [List.length_set]
    omega

/-- What `read` returns when it is asked for `want` bytes and `rest` is left of the file.  `chunk` tells how many
bytes are there, less one, by the number of bytes left. -/
def readCount (chunk : Nat → Nat) (want : Nat) (rest : List Byte) : Nat :=
  min want (min rest.length (chunk rest.length + 1))

/-- The loop of `grep` with `m` bytes in the buffer: what is written. -/
def grepLoop (re : List Byte) (chunk : Nat → Nat) (buf : List Byte) (m : Nat) (rest : List Byte) : List Byte :=
  let n := readCount chunk (bufSize - m - 1) rest
  if n = 0 then []
  else
    let buf := buf.take m ++ rest.take n ++ buf.drop (m + n)
    let m := m + n
    let buf := buf.set m 0
    let (buf, p, out) := scanLines re buf 0
    if m > 0 then
      let m := m - p
      -- memmove(buf, p, m)
      let buf := (buf.drop p).take m ++ buf.drop m
      out ++ grepLoop re chunk buf m (rest.drop n)
    else out ++ grepLoop re chunk buf m (rest.drop n)
termination_by rest.length
decreasing_by
  all_goals
    have : n ≤ rest.length := (Nat.min_le_right _ _).trans (Nat.min_le_left _ _)
    rw [List.length_drop]
    omega

/-- `grep(pattern, fd)` of a file, when `buf` is in the buffer. -/
def grep (re : List Byte) (chunk : Nat → Nat) (buf file : List Byte) : List Byte :=
  grepLoop re chunk buf 0 file

/-! ## Lines -/

/-- The lines that end with a newline, and what comes after the last newline. -/
def splitLines : List Byte → List (List Byte) × List Byte
  | [] => ([], [])
  | b :: bs =>
    let r := splitLines bs
    if b = newline then ([] :: r.1, r.2)
    else
      match r.1 with
      | [] => ([], b :: r.2)
      | l :: ls => ((b :: l) :: ls, r.2)

/-- Lines with their newlines. -/
def unlines (ls : List (List Byte)) : List Byte := ls.flatMap (· ++ [newline])

@[simp] theorem unlines_nil : unlines [] = [] := rfl

@[simp] theorem unlines_cons (l : List Byte) (ls : List (List Byte)) :
    unlines (l :: ls) = l ++ newline :: unlines ls := by
  simp [unlines]

/-- The lines that match. -/
def printLines (re : List Byte) (ls : List (List Byte)) : List Byte := unlines (ls.filter (matchText re))

/-- The lines of the file that match, in order. -/
def matchingLines (re file : List Byte) : List Byte :=
  printLines re (splitLines file).1 ++
    if (splitLines file).2 ≠ [] ∧ matchText re (splitLines file).2 then (splitLines file).2 else []

theorem printLines_append (re : List Byte) (ls ls' : List (List Byte)) :
    printLines re (ls ++ ls') = printLines re ls ++ printLines re ls' := by
  simp [printLines, unlines]

theorem printLines_eq_nil {re : List Byte} :
    printLines re ls = [] ↔ ∀ l ∈ ls, matchText re l = false := by
  simp [printLines, unlines]

theorem splitLines_of_notMem (h : newline ∉ l) : splitLines l = ([], l) := by
  induction l with
  | nil => rfl
  | cons b l ih =>
    obtain ⟨hb, hl⟩ := not_or.mp (mt List.mem_cons.mpr h)
    simp [splitLines, ih hl, Ne.symm hb]

theorem splitLines_line (h : newline ∉ l) (rest : List Byte) :
    splitLines (l ++ newline :: rest) = (l :: (splitLines rest).1, (splitLines rest).2) := by
  induction l with
  | nil => simp [splitLines]
  | cons b l ih =>
    obtain ⟨hb, hl⟩ := not_or.mp (mt List.mem_cons.mpr h)
    simp [splitLines, ih hl, Ne.symm hb]

/-- A file is its lines and what comes after them. -/
theorem splitLines_spec (file : List Byte) :
    file = unlines (splitLines file).1 ++ (splitLines file).2 ∧
      (∀ l ∈ (splitLines file).1, newline ∉ l) ∧ newline ∉ (splitLines file).2 := by
  induction file with
  | nil => exact ⟨rfl, nofun, nofun⟩
  | cons b bs ih =>
    obtain ⟨hbs, hlines, hlast⟩ := ih
    by_cases hb : b = newline
    · simp only [splitLines, hb, if_true, unlines_cons, List.nil_append, List.cons_append, List.forall_mem_cons]
      exact ⟨congrArg (newline :: ·) hbs, ⟨List.not_mem_nil, hlines⟩, hlast⟩
    · have hcons : ∀ {l : List Byte}, newline ∉ l → newline ∉ b :: l := fun hl hm =>
        (List.mem_cons.mp hm).elim (fun he => hb he.symm) hl
      simp only [splitLines, hb, if_false]
      cases hr : (splitLines bs).1 with
      | nil =>
        rw [hr] at hbs
        exact ⟨congrArg (b :: ·) hbs, nofun, hcons hlast⟩
      | cons l ls =>
        rw [hr] at hbs hlines
        obtain ⟨hl, hls⟩ := List.forall_mem_cons.mp hlines
        exact ⟨congrArg (b :: ·) hbs, List.forall_mem_cons.mpr ⟨hcons hl, hls⟩, hlast⟩

/-- Lines, and then anything. -/
theorem splitLines_unlines (h : ∀ l ∈ ls, newline ∉ l) (rest : List Byte) :
    splitLines (unlines ls ++ rest) = (ls ++ (splitLines rest).1, (splitLines rest).2) := by
  induction ls with
  | nil => rfl
  | cons l ls ih =>
    obtain ⟨hl, hls⟩ := List.forall_mem_cons.mp h
    rw [unlines_cons, List.append_assoc, List.cons_append, splitLines_line hl, ih hls]
    rfl

/-! ## The buffer -/

theorem takeWhile_nonzero (h : (0 : Byte) ∉ l) :
    (l ++ rest).takeWhile (· ≠ 0) = l ++ rest.takeWhile (· ≠ 0) := by
  refine List.takeWhile_append_of_pos fun x hx => decide_eq_true ?_
  rintro rfl
  exact h hx

theorem cstr_eq {stale : List Byte} (h0 : (0 : Byte) ∉ l) (h : buf.drop p = l ++ 0 :: stale) :
    cstr buf p = l := by
  rw [cstr, h, takeWhile_nonzero h0, List.takeWhile_cons_of_neg (by decide), List.append_nil]

theorem strchr_line (h0 : (0 : Byte) ∉ l) (hl : newline ∉ l)
    (h : buf.drop p = l ++ newline :: rest) : strchr buf p = some (p + l.length) := by
  have hc : cstr buf p = l ++ newline :: rest.takeWhile (· ≠ 0) := by
    rw [cstr, h, takeWhile_nonzero h0, List.takeWhile_cons_of_pos (by decide)]
  have hi : (cstr buf p).idxOf newline = l.length := by
    rw [hc, List.idxOf_append_of_notMem hl, List.idxOf_cons_self, Nat.add_zero]
  have hlt : l.length < (cstr buf p).length := by
    rw [hc, List.length_append, List.length_cons]
    omega
  simp only [strchr, hi, hlt, if_true]

theorem strchr_none {stale : List Byte} (h0 : (0 : Byte) ∉ l) (hl : newline ∉ l)
    (h : buf.drop p = l ++ 0 :: stale) : strchr buf p = none := by
  simp only [strchr, cstr_eq h0 h, List.idxOf_lt_length_iff, hl, if_false]

/-- The byte after `l` is replaced. -/
theorem drop_set {a : Byte} (b : Byte) (h : buf.drop p = l ++ a :: rest) :
    (buf.set (p + l.length) b).drop p = l ++ b :: rest := by
  rw [List.drop_set, if_neg (by omega), h, Nat.add_sub_cancel_left, List.set_append_right _ _ (le_refl _),
    Nat.sub_self, List.set_cons_zero]

/-- One line: it is written if it matches. -/
theorem scanLines_line (re : List Byte) (h0 : (0 : Byte) ∉ l) (hl : newline ∉ l)
    (h : buf.drop p = l ++ newline :: rest) :
    ∃ buf', buf'.length = buf.length ∧ buf'.drop (p + l.length + 1) = rest ∧
      scanLines re buf p = ((scanLines re buf' (p + l.length + 1)).1, (scanLines re buf' (p + l.length + 1)).2.1,
        printLines re [l] ++ (scanLines re buf' (p + l.length + 1)).2.2) := by
  have hcut := drop_set 0 h
  have hback := drop_set newline hcut
  have hnext : ∀ {buf : List Byte} {a : Byte}, buf.drop p = l ++ a :: rest →
      buf.drop (p + l.length + 1) = rest := fun {buf a} hb => by
    rw [Nat.add_assoc, ← List.drop_drop, hb, List.append_cons]
    exact List.drop_left' (by simp)
  have htake : (l ++ newline :: rest).take (p + l.length + 1 - p) = l ++ [newline] := by
    rw [List.append_cons]
    refine List.take_left' ?_
    rw [List.length_append, List.length_singleton]
    omega
  rw [scanLines.eq_def re buf]
  split
  · next hq =>
      rw [strchr_line h0 hl h] at hq
      cases hq
  · next q hq =>
      rw [strchr_line h0 hl h] at hq
      cases hq
      simp only [cstr_eq h0 hcut]
      split
      · next hm =>
          refine ⟨_, by simp, hnext hback, ?_⟩
          rw [hback, htake]
          simp [printLines, hm]
      · next hm => exact ⟨_, by simp, hnext hcut, by simp [printLines, hm]⟩

/-- The lines in the buffer are matched, and what comes after them is left. -/
theorem scanLines_eq (re : List Byte) {last stale : List Byte}
    (h0 : (0 : Byte) ∉ unlines ls ++ last) (hls : ∀ l ∈ ls, newline ∉ l) (hlast : newline ∉ last)
    (h : buf.drop p = unlines ls ++ (last ++ 0 :: stale)) :
    ∃ buf', scanLines re buf p = (buf', p + (unlines ls).length, printLines re ls) ∧
      buf'.length = buf.length ∧ buf'.drop (p + (unlines ls).length) = last ++ 0 :: stale := by
  induction ls generalizing buf p with
  | nil =>
    rw [scanLines.eq_def]
    split
    · exact ⟨buf, rfl, rfl, h⟩
    · next q hq =>
        rw [strchr_none h0 hlast h] at hq
        cases hq
  | cons l ls ih =>
    rw [unlines_cons, List.append_assoc] at h0 h
    obtain ⟨hl0, h0⟩ := not_or.mp (mt List.mem_append.mpr h0)
    obtain ⟨hl, hls⟩ := List.forall_mem_cons.mp hls
    obtain ⟨buf₁, hlen₁, hdrop₁, hscan₁⟩ := scanLines_line re hl0 hl h
    obtain ⟨buf', hscan, hlen, hdrop⟩ := ih (fun hm => h0 (List.mem_cons_of_mem _ hm)) hls hdrop₁
    have hp : p + (unlines (l :: ls)).length = p + l.length + 1 + (unlines ls).length := by
      rw [unlines_cons, List.length_append, List.length_cons]
      omega
    refine ⟨buf', ?_, hlen.trans hlen₁, hp ▸ hdrop⟩
    rw [hscan₁, hscan, hp, ← printLines_append]
    rfl

/-! ## What is printed -/

/-- The lines before the first one that does not fit in the buffer. -/
def printed (re file : List Byte) : List Byte :=
  printLines re ((splitLines file).1.takeWhile (·.length < bufSize - 1))

/-- Lines that fit, and then anything. -/
theorem printed_unlines (re : List Byte) (h : ∀ l ∈ ls, newline ∉ l)
    (hfit : ∀ l ∈ ls, l.length < bufSize - 1) (rest : List Byte) :
    printed re (unlines ls ++ rest) = printLines re ls ++ printed re rest := by
  unfold printed
  rw [splitLines_unlines h, List.takeWhile_append_of_pos, printLines_append]
  exact fun l hl => decide_eq_true (hfit l hl)

/-- Nothing more is printed when the first line is too long, or the file has no more lines. -/
theorem printed_eq_nil (re : List Byte) {carry : List Byte} (h : newline ∉ carry)
    (hlen : bufSize - 1 ≤ carry.length ∨ rest = []) : printed re (carry ++ rest) = [] := by
  obtain ⟨hsplit, hlines, hlast⟩ := splitLines_spec rest
  unfold printed
  cases hls : (splitLines rest).1 with
  | nil =>
    rw [hls, unlines_nil, List.nil_append] at hsplit
    have hno : newline ∉ carry ++ rest := fun hm => (List.mem_append.mp hm).elim h (by rwa [hsplit])
    rw [splitLines_of_notMem hno]
    rfl
  | cons l ls =>
    rw [hls] at hsplit hlines
    have hl : newline ∉ carry ++ l := fun hm =>
      (List.mem_append.mp hm).elim h (hlines l List.mem_cons_self)
    have hlong : bufSize - 1 ≤ carry.length := hlen.resolve_right fun he => by
      rw [he] at hls
      cases hls
    rw [hsplit, unlines_cons, List.append_assoc, ← List.append_assoc, List.cons_append, splitLines_line hl,
      List.takeWhile_cons_of_neg]
    · rfl
    · rw [List.length_append, decide_eq_true_eq]
      omega

/-- A line is shorter than the bytes it is in. -/
theorem length_lt_unlines (h : l ∈ ls) : l.length < (unlines ls).length := by
  induction ls with
  | nil => cases h
  | cons l' ls ih =>
    rw [unlines_cons, List.length_append, List.length_cons]
    rcases List.mem_cons.mp h with rfl | h
    · omega
    · have := ih h
      omega

/-- The bytes kept in the buffer and those still to be read make up what is left of the file. -/
theorem grepLoop_eq (re : List Byte) (chunk : Nat → Nat) {carry : List Byte} (hbuf : buf.length = bufSize)
    (hcarry : buf.take carry.length = carry) (hlt : carry.length < bufSize) (hn : newline ∉ carry)
    (h0 : (0 : Byte) ∉ carry ++ rest) :
    grepLoop re chunk buf carry.length rest = printed re (carry ++ rest) := by
  induction hk : rest.length using Nat.strong_induction_on generalizing buf carry rest with
  | _ k ih =>
    rw [grepLoop.eq_def]
    dsimp only
    generalize hcount : readCount chunk (bufSize - carry.length - 1) rest = n
    have hle : n ≤ rest.length ∧ n ≤ bufSize - carry.length - 1 ∧
        (n = 0 → bufSize - 1 ≤ carry.length ∨ rest = []) := by
      rw [← List.length_eq_zero_iff, ← hcount]
      unfold readCount
      omega
    split
    · next hz => rw [printed_eq_nil re hn (hle.2.2 hz)]
    · next hz =>
        have hdata : (carry ++ rest.take n).length = carry.length + n := by
          rw [List.length_append, List.length_take, Nat.min_eq_left hle.1]
        have hsome : carry.length + n < buf.length := by omega
        -- the buffer after the read
        have hread : (buf.take carry.length ++ rest.take n ++ buf.drop (carry.length + n)).set (carry.length + n) 0 =
            carry ++ rest.take n ++ 0 :: buf.drop (carry.length + n + 1) := by
          rw [hcarry, List.drop_eq_getElem_cons hsome]
          have := drop_set 0 (List.drop_zero (l := carry ++ rest.take n ++
            buf[carry.length + n] :: buf.drop (carry.length + n + 1)))
          rwa [List.drop_zero, Nat.zero_add, hdata] at this
        obtain ⟨hsplit, hls, hlast⟩ := splitLines_spec (carry ++ rest.take n)
        generalize (splitLines (carry ++ rest.take n)).1 = ls at *
        generalize (splitLines (carry ++ rest.take n)).2 = last at *
        have hfile : carry ++ rest = unlines ls ++ (last ++ rest.drop n) := by
          rw [← List.append_assoc, ← hsplit, List.append_assoc, List.take_append_drop]
        rw [hfile, ← List.append_assoc] at h0
        obtain ⟨h0, h0'⟩ := not_or.mp (mt List.mem_append.mpr h0)
        have hbytes : (carry ++ rest.take n ++ 0 :: buf.drop (carry.length + n + 1)).drop 0 =
            unlines ls ++ (last ++ 0 :: buf.drop (carry.length + n + 1)) := by
          rw [List.drop_zero, hsplit, List.append_assoc]
        obtain ⟨buf', hscan, hlen', hdrop⟩ := scanLines_eq re h0 hls hlast hbytes
        rw [hsplit, List.length_append] at hdata
        have hlast' : carry.length + n - (0 + (unlines ls).length) = last.length := by omega
        have hfull : buf'.length = bufSize := by
          rw [hlen', hsplit, List.length_append, List.length_append, List.length_cons, List.length_drop]
          omega
        rw [hread, hscan]
        dsimp only
        rw [if_pos (by omega), hlast', hdrop, List.take_left, hfile]
        rw [printed_unlines re hls fun l hl => ?_]
        · refine congrArg (printLines re ls ++ ·) (ih _ ?_ ?_ List.take_left ?_ hlast ?_ rfl)
          · rw [List.length_drop]
            omega
          · rw [List.length_append, List.length_drop]
            omega
          · omega
          · intro hm
            exact (List.mem_append.mp hm).elim (fun hm => h0 (List.mem_append_right _ hm)) h0'
        · have := length_lt_unlines hl
          omega

/-- Every line that matches ends with a newline, and no line up to it has more than 1022 bytes. -/
def FitsBuffer (re file : List Byte) : Prop :=
  (∀ l ∈ (splitLines file).1.dropWhile (·.length < bufSize - 1), matchText re l = false) ∧
    ((splitLines file).2 ≠ [] → matchText re (splitLines file).2 = false)

theorem grep_eq_printed (re : List Byte) {file : List Byte} (hbuf : buf.length = bufSize)
    (h0 : (0 : Byte) ∉ file) (chunk : Nat → Nat) : grep re chunk buf file = printed re file :=
  grepLoop_eq re chunk hbuf (rfl : buf.take ([] : List Byte).length = []) (by decide) List.not_mem_nil h0

/-- `grep` writes the lines that match if and only if they end with a newline and fit in the buffer, as do the
lines before them; the sizes of the reads make no difference. -/
theorem grep_eq_matchingLines_iff (re : List Byte) {buf file : List Byte} (hbuf : buf.length = bufSize)
    (h0 : (0 : Byte) ∉ file) (chunk : Nat → Nat) :
    grep re chunk buf file = matchingLines re file ↔ FitsBuffer re file := by
  have hlines : printLines re (splitLines file).1 = printed re file ++
      printLines re ((splitLines file).1.dropWhile (·.length < bufSize - 1)) := by
    rw [printed, ← printLines_append, List.takeWhile_append_dropWhile]
  rw [grep_eq_printed re hbuf h0, matchingLines, hlines, List.append_assoc, List.self_eq_append_right,
    List.append_eq_nil_iff, printLines_eq_nil, FitsBuffer]
  refine and_congr_right fun _ => ?_
  split
  · next h => simp [h.1, h.2]
  · next h => simpa using h

/-- A file of one line that ends with a newline. -/
theorem grep_eq_matchingLines_a :
    grep [97] (fun _ => 0) (List.replicate bufSize 0) [97, newline] = matchingLines [97] [97, newline] :=
  (grep_eq_matchingLines_iff [97] List.length_replicate (by decide) fun _ => 0).mpr
    ⟨by decide, fun h => absurd rfl h⟩

/-- The only line of the file `a` is not written. -/
theorem grep_skips_last_line : grep [97] (fun _ => 0) (List.replicate bufSize 0) [97] = [] ∧
    matchingLines [97] [97] = [97] := by
  constructor
  · rw [grep_eq_printed [97] List.length_replicate (by decide)]
    rfl
  · have hmatch : matchText [97] [97] = true := by
      simp [matchText, matchFrom, matchhere.eq_def, caret, dollar]
    rw [matchingLines, splitLines_of_notMem (by decide), if_pos ⟨by decide, hmatch⟩]
    rfl

end MiniOS.Grep
