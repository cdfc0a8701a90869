import MiniOS.Riscv

/-!
# MiniOS.Printf

`printf` and `logprintf` of `kernel/printf.c`.  Both send characters to the
console and to the kernel log; `Out` has what was sent to each, and how many
variadic arguments were taken.  Arguments are the 64-bit words of the
argument area (beyond those that the caller passed it holds any values), and
`str` gives the bytes of the string at an address.
-/

namespace MiniOS

/-- What has been printed, and the position of `ap`. -/
structure Out where
  console : List Nat
  log : List Nat
  ap : Nat
deriving DecidableEq

/-- The arguments, and the strings in memory. -/
structure VaList where
  args : Nat → BitVec 64
  str : BitVec 64 → List Byte

/-- A conversion, after its `%`. -/
inductive Conv
  /-- an `int` or `uint32`, or 64 bits if `long` -/
  | int (signed long : Bool) (base : Nat)
  | ptr
  | chr
  | str
  | percent
  /-- the end of the format -/
  | stop
  | unknown
deriving DecidableEq

namespace Out

def consputc (o : Out) (c : Nat) : Out := { o with console := o.console ++ [c] }

/-- `putc_log`, as far as the sequence of characters goes. -/
def putcLog (o : Out) (c : Nat) : Out := { o with log := o.log ++ [c] }

/-- `consputc(c); putc_log(c);`. -/
def put (o : Out) (c : Nat) : Out := (o.consputc c).putcLog c

/-- A loop that prints the characters one after the other. -/
def puts (o : Out) (cs : List Nat) : Out := cs.foldl put o

/-- `va_arg`. -/
def vaArg (o : Out) (va : VaList) : BitVec 64 × Out := (va.args o.ap, { o with ap := o.ap + 1 })

end Out

/-- `digits[i]`. -/
def digit (i : Nat) : Nat := if i < 10 then 48 + i else 87 + i

/-- The digits of `x` that `printint` puts in its buffer, the last one first.
The buffer has room for those of any 64-bit number. -/
def digitLoop (base : Nat) : Nat → Nat → List Nat
  | 0, _ => []
  | fuel + 1, x => digit (x % base) :: if x / base = 0 then [] else digitLoop base fuel (x / base)

/-- The characters that `printint` prints. -/
def intText (xx : BitVec 64) (base : Nat) (sign : Bool) : List Nat :=
  let neg := sign && xx.slt 0
  let x := if neg then -xx else xx
  (digitLoop base 64 x.toNat ++ if neg then [45] else []).reverse

/-- `printint`. -/
def printint (o : Out) (xx : BitVec 64) (base : Nat) (sign : Bool) : Out := o.puts (intText xx base sign)

/-- The hexadecimal digits that `printptr` prints, with `n` to go. -/
def ptrDigits : Nat → BitVec 64 → List Nat
  | 0, _ => []
  | n + 1, x => digit (x >>> 60).toNat :: ptrDigits n (x <<< 4)

/-- `printptr`. -/
def printptr (o : Out) (x : BitVec 64) : Out := ((o.put 48).put 120).puts (ptrDigits 16 x)

/-- The conversion that the next characters of the format make, and how many more of them
than one it takes. -/
def convOf (c0 c1 c2 : Byte) : Conv × Nat :=
  let d : Byte := 100
  let l : Byte := 108
  let u : Byte := 117
  let x : Byte := 120
  if c0 = d then (.int true false 10, 0)
  else if c0 = l ∧ c1 = d then (.int true true 10, 1)
  else if c0 = l ∧ c1 = l ∧ c2 = d then (.int true true 10, 2)
  else if c0 = u then (.int false false 10, 0)
  else if c0 = l ∧ c1 = u then (.int false true 10, 1)
  else if c0 = l ∧ c1 = l ∧ c2 = u then (.int false true 10, 2)
  else if c0 = x then (.int false false 16, 0)
  else if c0 = l ∧ c1 = x then (.int false true 16, 1)
  else if c0 = l ∧ c1 = l ∧ c2 = x then (.int false true 16, 2)
  else if c0 = 112 then (.ptr, 0)
  else if c0 = 99 then (.chr, 0)
  else if c0 = 115 then (.str, 0)
  else if c0 = 37 then (.percent, 0)
  else if c0 = 0 then (.stop, 0)
  else (.unknown, 0)

/-- The conversion that `fmt`, the format after a `%`, starts with.  No character after the end of the
format is read. -/
def nextConv (fmt : List Byte) : Conv × Nat :=
  let c0 := fmt.getD 0 0
  let c1 := if c0 ≠ 0 then fmt.getD 1 0 else 0
  let c2 := if c1 ≠ 0 then fmt.getD 2 0 else 0
  convOf c0 c1 c2

/-- `va_arg(ap, int)`, `va_arg(ap, uint32)` and `va_arg(ap, uint64)`, as a `long long`. -/
def intArg (signed long : Bool) (a : BitVec 64) : BitVec 64 :=
  if long then a
  else if signed then (a.setWidth 32).signExtend 64
  else (a.setWidth 32).setWidth 64

/-- `"(null)"`. -/
def nullText : List Nat := [40, 110, 117, 108, 108, 41]

/-- The characters of the string that a `char*` points to. -/
def strText (va : VaList) (s : BitVec 64) : List Nat :=
  if s = 0 then nullText else (va.str s).map (·.toNat)

/-- What is done for a conversion. -/
def convert (va : VaList) (o : Out) (c0 : Byte) : Conv → Out
  | .int signed long base =>
    let (a, o) := o.vaArg va
    printint o (intArg signed long a) base signed
  | .ptr =>
    let (a, o) := o.vaArg va
    printptr o a
  | .chr =>
    -- the second `va_arg` takes the next argument
    let (a, o) := o.vaArg va
    let o := o.consputc (a.setWidth 32).toNat
    let (b, o) := o.vaArg va
    o.putcLog (b.setWidth 32).toNat
  | .str =>
    let (a, o) := o.vaArg va
    o.puts (strText va a)
  | .percent => o.put 37
  | .stop => o
  | .unknown => (o.put 37).put c0.toNat

/-- The loop of `printf` and `logprintf` over the rest of the format. -/
def formatLoop (va : VaList) : List Byte → Out → Out
  | [], o => o
  | cx :: fmt, o =>
    if cx = 0 then o
    else if cx ≠ 37 then formatLoop va fmt (o.put cx.toNat)
    else
      let k := nextConv fmt
      if k.1 = .stop then o
      else formatLoop va (fmt.drop (k.2 + 1)) (convert va o (fmt.getD 0 0) k.1)
termination_by fmt => fmt.length
decreasing_by all_goals grind

/-- `printf`. -/
def printf (va : VaList) (fmt : List Byte) (o : Out) : Out := formatLoop va fmt o

/-- `logprintf`. -/
def logprintf (va : VaList) (fmt : List Byte) (o : Out) : Out :=
  (formatLoop va fmt (o.consputc 1)).consputc 2

/-! ## What a format asks for -/

/-- A part of a format. -/
inductive Piece
  | char (c : Byte)
  | conv (k : Conv)
  | unknown (c0 : Byte)
deriving DecidableEq

/-- The part that a `%` and the character after it start. -/
def pieceOf (c0 : Byte) (k : Conv) : Piece := if k = .unknown then .unknown c0 else .conv k

/-- Whether a conversion stands for an argument. -/
def Conv.takes : Conv → Bool
  | .int .. | .ptr | .chr | .str => true
  | .percent | .stop | .unknown => false

/-- The parts of a format. -/
def pieces : List Byte → List Piece
  | [] => []
  | cx :: fmt =>
    if cx = 0 then []
    else if cx ≠ 37 then .char cx :: pieces fmt
    else
      let k := nextConv fmt
      if k.1 = .stop then [] else pieceOf (fmt.getD 0 0) k.1 :: pieces (fmt.drop (k.2 + 1))
termination_by fmt => fmt.length
decreasing_by all_goals grind

/-- The text of a conversion of the argument `a`. -/
def convText (va : VaList) (a : BitVec 64) : Conv → List Nat
  | .int signed long base => intText (intArg signed long a) base signed
  | .ptr => [48, 120] ++ ptrDigits 16 a
  | .chr => [(a.setWidth 32).toNat]
  | .str => strText va a
  | .percent => [37]
  | .stop | .unknown => []

/-- The number of arguments that the parts of a format stand for. -/
def nargs : List Piece → Nat
  | [] => 0
  | .conv k :: ps => (if k.takes then 1 else 0) + nargs ps
  | _ :: ps => nargs ps

/-- The text of the parts of a format, each conversion with its own argument, from argument `j` on. -/
def render (va : VaList) : Nat → List Piece → List Nat
  | _, [] => []
  | j, .char c :: ps => c.toNat :: render va j ps
  | j, .unknown c :: ps => 37 :: c.toNat :: render va j ps
  | j, .conv k :: ps => convText va (va.args j) k ++ render va (if k.takes then j + 1 else j) ps

/-! ## What is printed -/

namespace Out

/-- The same text is appended to both, and arguments are taken. -/
def both (o : Out) (text : List Nat) (n : Nat) : Out :=
  ⟨o.console ++ text, o.log ++ text, o.ap + n⟩

@[simp] theorem both_ap (o : Out) (text : List Nat) (n : Nat) : (o.both text n).ap = o.ap + n := rfl

@[simp] theorem both_nil (o : Out) : o.both [] 0 = o := by simp [both]

theorem both_both (o : Out) (t u : List Nat) (m n : Nat) :
    (o.both t m).both u n = o.both (t ++ u) (m + n) := by
  simp [both, Nat.add_assoc]

theorem put_eq (o : Out) (c : Nat) : o.put c = o.both [c] 0 := rfl

theorem puts_eq (o : Out) (cs : List Nat) : o.puts cs = o.both cs 0 := by
  induction cs generalizing o with
  | nil => simp [puts]
  | cons c cs ih =>
    have h := ih (o.put c)
    rw [put_eq, both_both] at h
    exact h

theorem vaArg_eq (o : Out) (va : VaList) : o.vaArg va = (va.args o.ap, o.both [] 1) := by
  simp [vaArg, both]

end Out

/-- A conversion other than `%c` prints its argument's text to both. -/
theorem convert_eq {va : VaList} {o : Out} {c0 : Byte} {k : Conv} (hchr : k ≠ .chr) (hu : k ≠ .unknown) :
    convert va o c0 k = o.both (convText va (va.args o.ap) k) (if k.takes then 1 else 0) := by
  cases k with
  | int signed long base =>
    simp only [convert, printint, Out.vaArg_eq, Out.puts_eq, Out.both_both]
    rfl
  | ptr =>
    simp only [convert, printptr, Out.vaArg_eq, Out.puts_eq, Out.put_eq, Out.both_both]
    rfl
  | chr => exact absurd rfl hchr
  | str =>
    simp only [convert, Out.vaArg_eq, Out.puts_eq, Out.both_both]
    rfl
  | percent => rfl
  | stop => simp [convert, convText, Conv.takes]
  | unknown => exact absurd rfl hu

/-- The parts of a format that starts with a character to print. -/
theorem pieces_char {cx : Byte} {fmt : List Byte} (h0 : cx ≠ 0) (hp : cx ≠ 37) :
    pieces (cx :: fmt) = .char cx :: pieces fmt := by
  rw [pieces, if_neg h0, if_pos hp]

theorem pieces_stop {cx : Byte} {fmt : List Byte} (hp : ¬cx ≠ 37) (hstop : (nextConv fmt).1 = .stop) :
    pieces (cx :: fmt) = [] := by
  rw [pieces, if_neg hp]
  simp [hstop]

/-- The parts of a format that starts with a conversion. -/
theorem pieces_conv {cx : Byte} {fmt : List Byte} (h0 : cx ≠ 0) (hp : ¬cx ≠ 37)
    (hstop : (nextConv fmt).1 ≠ .stop) :
    pieces (cx :: fmt) =
      pieceOf (fmt.getD 0 0) (nextConv fmt).1 :: pieces (fmt.drop ((nextConv fmt).2 + 1)) := by
  rw [pieces, if_neg h0, if_neg hp]
  exact if_neg hstop

/-- Without `%c`, both get the text of the format with the arguments in order. -/
theorem formatLoop_eq {va : VaList} {fmt : List Byte} {o : Out} (h : .conv .chr ∉ pieces fmt) :
    formatLoop va fmt o = o.both (render va o.ap (pieces fmt)) (nargs (pieces fmt)) := by
  fun_induction formatLoop va fmt o with
  | case1 o => simp [pieces, render, nargs]
  | case2 fmt o => simp [pieces, render, nargs]
  | case3 cx fmt o h0 hp ih =>
    rw [pieces_char h0 hp] at h ⊢
    rw [ih (List.not_mem_of_not_mem_cons h), Out.put_eq, Out.both_both, Nat.zero_add]
    rfl
  | case4 cx fmt o h0 hp k hstop => simp [pieces_stop hp hstop, render, nargs]
  | case5 cx fmt o h0 hp k hstop ih =>
    rw [pieces_conv h0 hp hstop] at h ⊢
    rw [ih (List.not_mem_of_not_mem_cons h)]
    simp only [k]
    by_cases hu : (nextConv fmt).1 = .unknown
    · simp only [hu, pieceOf, convert, Out.put_eq, Out.both_both, Out.both_ap, if_true, Nat.zero_add]
      rfl
    · have hchr : (nextConv fmt).1 ≠ .chr := by
        intro hc
        exact h (by simp [hc, pieceOf])
      rw [pieceOf, if_neg hu, convert_eq hchr hu, Out.both_both, Out.both_ap, render, nargs]
      split <;> rfl

/-- Each `%c` takes one argument more than it stands for. -/
theorem convert_ap (va : VaList) (o : Out) (c0 : Byte) (k : Conv) :
    (convert va o c0 k).ap = o.ap + nargs [pieceOf c0 k] + [pieceOf c0 k].count (.conv .chr) := by
  by_cases hchr : k = .chr
  · subst hchr
    rfl
  · by_cases hu : k = .unknown
    · subst hu
      rfl
    · rw [convert_eq hchr hu, Out.both_ap, pieceOf, if_neg hu, List.count_singleton]
      simp [hchr, nargs]

theorem nargs_cons (p : Piece) (ps : List Piece) : nargs (p :: ps) = nargs [p] + nargs ps := by
  cases p <;> simp [nargs]

theorem formatLoop_ap (va : VaList) (fmt : List Byte) (o : Out) :
    (formatLoop va fmt o).ap = o.ap + nargs (pieces fmt) + (pieces fmt).count (.conv .chr) := by
  fun_induction formatLoop va fmt o with
  | case1 o => simp [pieces, nargs]
  | case2 fmt o => simp [pieces, nargs]
  | case3 cx fmt o h0 hp ih =>
    rw [ih, pieces_char h0 hp, nargs, List.count_cons_of_ne (by simp)]
    · rfl
    · simp
  | case4 cx fmt o h0 hp k hstop => simp [pieces_stop hp hstop, nargs]
  | case5 cx fmt o h0 hp k hstop ih =>
    rw [ih, pieces_conv h0 hp hstop, convert_ap, nargs_cons _ (pieces _),
      List.count_cons (l := pieces _), List.count_singleton]
    simp only [k]
    omega

/-- The log gets the text of the format, with one argument for each conversion, and the console the same
between `pre` and `post`. -/
def Agree (va : VaList) (fmt : List Byte) (pre post : List Nat) (o o' : Out) : Prop :=
  let text := render va o.ap (pieces fmt)
  o' = ⟨o.console ++ pre ++ text ++ post, o.log ++ text, o.ap + nargs (pieces fmt)⟩

instance {va : VaList} {fmt : List Byte} {pre post : List Nat} {o o' : Out} :
    Decidable (Agree va fmt pre post o o') :=
  inferInstanceAs (Decidable (_ = _))

/-- Console and log agree exactly for the formats without `%c`. -/
theorem printf_agree_iff (va : VaList) (fmt : List Byte) (o : Out) :
    (Agree va fmt [] [] o (printf va fmt o) ∧ Agree va fmt [1] [2] o (logprintf va fmt o)) ↔
      .conv .chr ∉ pieces fmt := by
  constructor
  · rintro ⟨h, -⟩ hm
    have hap : (printf va fmt o).ap = o.ap + nargs (pieces fmt) := congrArg Out.ap h
    have := formatLoop_ap va fmt o
    have := List.count_pos_iff.mpr hm
    rw [printf] at hap
    omega
  · intro hm
    constructor
    · simp [Agree, printf, formatLoop_eq hm, Out.both]
    · simp [Agree, logprintf, formatLoop_eq hm, Out.both, Out.consputc]

/-- `printf("%c%d", 'A', 7)` with zero words after the arguments: the log gets 7 where the console gets
`A`, and `%d` prints the word after the 7. -/
theorem printf_char_shifts :
    let va : VaList := ⟨fun j => if j = 0 then 65 else if j = 1 then 7 else 0, fun _ => []⟩
    let o := printf va [37, 99, 37, 100] ⟨[], [], 0⟩
    o = ⟨[65, 48], [7, 48], 3⟩ ∧ render va 0 (pieces [37, 99, 37, 100]) = [65, 55] ∧
      ¬Agree va [37, 99, 37, 100] [] [] ⟨[], [], 0⟩ o := by
  decide +kernel

end MiniOS
