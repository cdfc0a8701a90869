import MiniOS.Sh
import Mathlib.Order.Nat

/-!
# MiniOS.Calculator

The calculator of `user/calculator.c`.  The cursor `char **p` is the list of the
bytes from `*p` on, which each function takes and returns; that no function moves
it back makes the recursion terminate.  `int` is `BitVec 32`.
-/

namespace MiniOS.Calculator

open Sh (ascii)

/-- `vars`. -/
abbrev Vars := Fin 26 → BitVec 32

/-- What `term` prints. -/
inductive Error
  | divisionByZero
  | moduloByZero
deriving DecidableEq

/-! ## Characters -/

def isBlank (b : Byte) : Bool := b = ascii ' ' ∨ b = ascii '\t'

/-- `skip_whitespace`. -/
def skipWhitespace (s : List Byte) : List Byte := s.dropWhile isBlank

def isDigit (b : Byte) : Bool := ascii '0' ≤ b ∧ b ≤ ascii '9'

/-- The variable of a letter. -/
def letter (b : Byte) : Option (Fin 26) :=
  if h : 97 ≤ b.toNat ∧ b.toNat ≤ 122 then some ⟨b.toNat - 97, by omega⟩ else none

/-- `if (**p == ')') (*p)++`. -/
def closeParen (s : List Byte) : List Byte := if s.head? = some (ascii ')') then s.tail else s

/-- The digits of a number that are left, after those with the value `val`. -/
def number (val : BitVec 32) : List Byte → BitVec 32 × List Byte
  | [] => (val, [])
  | b :: s => if isDigit b then number (val * 10 + BitVec.ofNat 32 (b.toNat - 48)) s else (val, b :: s)

theorem skipWhitespace_le (s : List Byte) : (skipWhitespace s).length ≤ s.length :=
  (List.dropWhile_suffix _).length_le

theorem closeParen_le (s : List Byte) : (closeParen s).length ≤ s.length := by
  unfold closeParen
  split
  · exact s.length_tail ▸ Nat.sub_le _ _
  · exact le_refl _

theorem number_le (val : BitVec 32) (s : List Byte) : (number val s).2.length ≤ s.length := by
  fun_induction number with
  | case1 => exact le_refl _
  | case2 val b s hb ih => exact ih.trans (Nat.le_succ _)
  | case3 => exact le_refl _

/-! ## The functions -/

/-- What a function returns, where the cursor is then, and what was printed. -/
structure Parsed where
  val : BitVec 32
  rest : List Byte
  out : List Error
deriving DecidableEq

/-- With what was printed before. -/
def Parsed.after (out : List Error) (r : Parsed) : Parsed := { r with out := out ++ r.out }

/-- The cursor has not moved back. -/
abbrev From (s : List Byte) := {r : Parsed // r.rest.length ≤ s.length}

mutual

def factor (vars : Vars) (s : List Byte) : From s :=
  have hskip := skipWhitespace_le s
  match h : skipWhitespace s with
  | [] => ⟨⟨0, [], []⟩, Nat.zero_le _⟩
  | b :: t =>
    have ht : t.length < s.length := by rw [h] at hskip; exact hskip
    if b = ascii '(' then
      let r := expr vars t
      ⟨⟨r.1.val, skipWhitespace (closeParen (skipWhitespace r.1.rest)), r.1.out⟩,
        (skipWhitespace_le _).trans ((closeParen_le _).trans ((skipWhitespace_le _).trans (r.2.trans ht.le)))⟩
    else
      match letter b with
      | some i => ⟨⟨vars i, skipWhitespace t, []⟩, (skipWhitespace_le t).trans ht.le⟩
      | none =>
        if isDigit b then
          ⟨⟨(number 0 (b :: t)).1, skipWhitespace (number 0 (b :: t)).2, []⟩,
            (skipWhitespace_le _).trans ((number_le 0 (b :: t)).trans ht)⟩
        else if b = ascii '-' then
          let r := factor vars t
          ⟨⟨-r.1.val, skipWhitespace r.1.rest, r.1.out⟩,
            (skipWhitespace_le _).trans (r.2.trans ht.le)⟩
        else ⟨⟨0, b :: t, []⟩, ht⟩
termination_by 5 * s.length + 0

/-- The loop of `term`. -/
def termLoop (vars : Vars) (val : BitVec 32) (s : List Byte) : From s :=
  have hskip := skipWhitespace_le s
  match h : skipWhitespace s with
  | [] => ⟨⟨val, [], []⟩, Nat.zero_le _⟩
  | b :: t =>
    have ht : t.length < s.length := by rw [h] at hskip; exact hskip
    if b = ascii '*' then
      let d := factor vars t
      have hd := d.2.trans_lt ht
      let r := termLoop vars (val * d.1.val) d.1.rest
      ⟨r.1.after d.1.out, r.2.trans hd.le⟩
    else if b = ascii '/' then
      let d := factor vars t
      have hd := d.2.trans_lt ht
      if d.1.val = 0 then ⟨⟨0, d.1.rest, d.1.out ++ [.divisionByZero]⟩, hd.le⟩
      else
        let r := termLoop vars (val.sdiv d.1.val) d.1.rest
        ⟨r.1.after d.1.out, r.2.trans hd.le⟩
    else if b = ascii '%' then
      let d := factor vars t
      have hd := d.2.trans_lt ht
      if d.1.val = 0 then ⟨⟨0, d.1.rest, d.1.out ++ [.moduloByZero]⟩, hd.le⟩
      else
        let r := termLoop vars (val.srem d.1.val) d.1.rest
        ⟨r.1.after d.1.out, r.2.trans hd.le⟩
    else ⟨⟨val, b :: t, []⟩, ht⟩
termination_by 5 * s.length + 1

def term (vars : Vars) (s : List Byte) : From s :=
  have hf := (factor vars s).2
  let r := termLoop vars (factor vars s).1.val (factor vars s).1.rest
  ⟨r.1.after (factor vars s).1.out, r.2.trans hf⟩
termination_by 5 * s.length + 2

/-- The loop of `expr`. -/
def exprLoop (vars : Vars) (val : BitVec 32) (s : List Byte) : From s :=
  have hskip := skipWhitespace_le s
  match h : skipWhitespace s with
  | [] => ⟨⟨val, [], []⟩, Nat.zero_le _⟩
  | b :: t =>
    have ht : t.length < s.length := by rw [h] at hskip; exact hskip
    if b = ascii '+' then
      let d := term vars t
      have hd := d.2.trans_lt ht
      let r := exprLoop vars (val + d.1.val) d.1.rest
      ⟨r.1.after d.1.out, r.2.trans hd.le⟩
    else if b = ascii '-' then
      let d := term vars t
      have hd := d.2.trans_lt ht
      let r := exprLoop vars (val - d.1.val) d.1.rest
      ⟨r.1.after d.1.out, r.2.trans hd.le⟩
    else ⟨⟨val, b :: t, []⟩, ht⟩
termination_by 5 * s.length + 3

def expr (vars : Vars) (s : List Byte) : From s :=
  have hf := (term vars s).2
  let r := exprLoop vars (term vars s).1.val (term vars s).1.rest
  ⟨r.1.after (term vars s).1.out, r.2.trans hf⟩
termination_by 5 * s.length + 4

end

/-- What `evaluate` prints. -/
inductive Printed
  | error (e : Error)
  | assigned (i : Fin 26) (val : BitVec 32)
  | value (val : BitVec 32)
deriving DecidableEq

/-- The variable that the line assigns to, and the expression. -/
def target (p : List Byte) : Option (Fin 26) × List Byte :=
  match p with
  | [] => (none, p)
  | b :: q =>
    match letter b with
    | none => (none, p)
    | some i =>
      if (skipWhitespace q).head? = some (ascii '=') then (some i, (skipWhitespace q).tail) else (none, p)

/-- `evaluate`: the variables after it, and what it prints. -/
def evaluate (vars : Vars) (line : List Byte) : Vars × List Printed :=
  let p := skipWhitespace line
  if p = [] ∨ p.head? = some (ascii '\n') then (vars, [])
  else
    let (dest, p) := target p
    let r := expr vars p
    match dest with
    | some i => (Function.update vars i r.1.val, r.1.out.map .error ++ [.assigned i r.1.val])
    | none => (vars, r.1.out.map .error ++ [.value r.1.val])

end MiniOS.Calculator
