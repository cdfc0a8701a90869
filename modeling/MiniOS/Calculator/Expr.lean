import MiniOS.Calculator
import Mathlib.Data.List.DropRight

/-!
# MiniOS.Calculator.Expr

Expressions and the texts that stand for them.  `expr` gives the value of the
expression for each of its texts.
-/

namespace MiniOS.Calculator

open Sh (ascii)

/-! ## Expressions -/

inductive BinOp
  | add
  | sub
  | mul
  | div
  | mod
deriving DecidableEq

inductive Expr
  | lit (n : Nat)
  | var (i : Fin 26)
  | neg (e : Expr)
  | bin (op : BinOp) (l r : Expr)

/-- The value, unless the divisor is 0 or the quotient is that of the least `int` by -1. -/
def BinOp.apply (a b : BitVec 32) : BinOp → Option (BitVec 32)
  | .add => some (a + b)
  | .sub => some (a - b)
  | .mul => some (a * b)
  | .div => if b = 0 ∨ (a = BitVec.intMin 32 ∧ b = -1) then none else some (a.sdiv b)
  | .mod => if b = 0 ∨ (a = BitVec.intMin 32 ∧ b = -1) then none else some (a.srem b)

def Expr.eval (vars : Vars) : Expr → Option (BitVec 32)
  | lit n => some (BitVec.ofNat 32 n)
  | var i => some (vars i)
  | neg e => (e.eval vars).map (- ·)
  | bin op l r => (l.eval vars).bind fun a => (r.eval vars).bind fun b => op.apply a b

/-! ## Texts -/

def BinOp.char : BinOp → Byte
  | .add => ascii '+'
  | .sub => ascii '-'
  | .mul => ascii '*'
  | .div => ascii '/'
  | .mod => ascii '%'

/-- The function that reads a text. -/
inductive Level
  | factor
  | term
  | expr

def BinOp.level : BinOp → Level
  | .add | .sub => .expr
  | .mul | .div | .mod => .term

/-- Spaces and tabs. -/
def Blank (w : List Byte) : Prop := ∀ b ∈ w, isBlank b = true

instance {w : List Byte} : Decidable (Blank w) := inferInstanceAs (Decidable (∀ b ∈ w, _))

/-- The number that digits stand for. -/
def decimal (ds : List Byte) : Nat := ds.foldl (fun n b => 10 * n + (b.toNat - 48)) 0

/-- `Renders l e s`: the text `s` stands for `e` where a text of level `l` can stand.  Parentheses can stand
around every expression, and spaces and tabs between two tokens. -/
inductive Renders : Level → Expr → List Byte → Prop
  | lit {ds : List Byte} (h : ds ≠ []) (hd : ∀ b ∈ ds, isDigit b = true) : Renders .factor (.lit (decimal ds)) ds
  | var {b : Byte} {i : Fin 26} (h : letter b = some i) : Renders .factor (.var i) [b]
  | neg {e : Expr} {w s : List Byte} (hw : Blank w) (h : Renders .factor e s) :
      Renders .factor (.neg e) (ascii '-' :: (w ++ s))
  | paren {e : Expr} {w w' s : List Byte} (hw : Blank w) (hw' : Blank w') (h : Renders .expr e s) :
      Renders .factor e (ascii '(' :: (w ++ (s ++ (w' ++ [ascii ')']))))
  | factor {e : Expr} {s : List Byte} (h : Renders .factor e s) : Renders .term e s
  | mul {op : BinOp} {l r : Expr} {w w' s t : List Byte} (hop : op.level = .term) (hw : Blank w) (hw' : Blank w')
      (hl : Renders .term l s) (hr : Renders .factor r t) :
      Renders .term (.bin op l r) (s ++ (w ++ op.char :: (w' ++ t)))
  | term {e : Expr} {s : List Byte} (h : Renders .term e s) : Renders .expr e s
  | add {op : BinOp} {l r : Expr} {w w' s t : List Byte} (hop : op.level = .expr) (hw : Blank w) (hw' : Blank w')
      (hl : Renders .expr l s) (hr : Renders .term r t) :
      Renders .expr (.bin op l r) (s ++ (w ++ op.char :: (w' ++ t)))

/-! ## The functions on a known text -/

theorem skipWhitespace_blank {w : List Byte} (hw : Blank w) (s : List Byte) :
    skipWhitespace (w ++ s) = skipWhitespace s := List.dropWhile_append_of_pos hw

theorem skipWhitespace_cons {b : Byte} (h : isBlank b = false) (t : List Byte) : skipWhitespace (b :: t) = b :: t :=
  List.dropWhile_cons_of_neg (by rw [h]; nofun)

theorem skipWhitespace_idem (s : List Byte) : skipWhitespace (skipWhitespace s) = skipWhitespace s :=
  List.dropWhile_idempotent isBlank s

theorem factor_eq (vars : Vars) (s : List Byte) : (factor vars s).1 =
    match skipWhitespace s with
    | [] => ⟨0, [], []⟩
    | b :: t =>
      if b = ascii '(' then
        let r := (expr vars t).1
        ⟨r.val, skipWhitespace (closeParen (skipWhitespace r.rest)), r.out⟩
      else
        match letter b with
        | some i => ⟨vars i, skipWhitespace t, []⟩
        | none =>
          if isDigit b then ⟨(number 0 (b :: t)).1, skipWhitespace (number 0 (b :: t)).2, []⟩
          else if b = ascii '-' then
            let r := (factor vars t).1
            ⟨-r.val, skipWhitespace r.rest, r.out⟩
          else ⟨0, b :: t, []⟩ := by
  rw [factor.eq_def]
  split
  · next h => simp only [h]
  · next b t h =>
      simp only [h]
      cases letter b
      all_goals
        dsimp only
        repeat' split
      all_goals rfl

theorem termLoop_eq (vars : Vars) (val : BitVec 32) (s : List Byte) : (termLoop vars val s).1 =
    match skipWhitespace s with
    | [] => ⟨val, [], []⟩
    | b :: t =>
      let d := (factor vars t).1
      if b = ascii '*' then (termLoop vars (val * d.val) d.rest).1.after d.out
      else if b = ascii '/' then
        if d.val = 0 then ⟨0, d.rest, d.out ++ [.divisionByZero]⟩
        else (termLoop vars (val.sdiv d.val) d.rest).1.after d.out
      else if b = ascii '%' then
        if d.val = 0 then ⟨0, d.rest, d.out ++ [.moduloByZero]⟩
        else (termLoop vars (val.srem d.val) d.rest).1.after d.out
      else ⟨val, b :: t, []⟩ := by
  rw [termLoop.eq_def]
  split
  · next h => simp only [h]
  · next b t h =>
      simp only [h]
      repeat' split
      all_goals rfl

theorem exprLoop_eq (vars : Vars) (val : BitVec 32) (s : List Byte) : (exprLoop vars val s).1 =
    match skipWhitespace s with
    | [] => ⟨val, [], []⟩
    | b :: t =>
      let d := (term vars t).1
      if b = ascii '+' then (exprLoop vars (val + d.val) d.rest).1.after d.out
      else if b = ascii '-' then (exprLoop vars (val - d.val) d.rest).1.after d.out
      else ⟨val, b :: t, []⟩ := by
  rw [exprLoop.eq_def]
  split
  · next h => simp only [h]
  · next b t h =>
      simp only [h]
      repeat' split
      all_goals rfl

theorem term_eq (vars : Vars) (s : List Byte) : (term vars s).1 =
    (termLoop vars (factor vars s).1.val (factor vars s).1.rest).1.after (factor vars s).1.out := by
  rw [term.eq_def]

theorem expr_eq (vars : Vars) (s : List Byte) : (expr vars s).1 =
    (exprLoop vars (term vars s).1.val (term vars s).1.rest).1.after (term vars s).1.out := by
  rw [expr.eq_def]

section
variable {vars : Vars} {a b v : BitVec 32} {s t rest : List Byte}

/-- The loops start with `skip_whitespace`. -/
theorem termLoop_skip (vars : Vars) (a : BitVec 32) (s : List Byte) :
    (termLoop vars a (skipWhitespace s)).1 = (termLoop vars a s).1 := by
  rw [termLoop_eq, termLoop_eq vars a s, skipWhitespace_idem]

theorem exprLoop_skip (vars : Vars) (a : BitVec 32) (s : List Byte) :
    (exprLoop vars a (skipWhitespace s)).1 = (exprLoop vars a s).1 := by
  rw [exprLoop_eq, exprLoop_eq vars a s, skipWhitespace_idem]

/-- An operator of `term`. -/
theorem termLoop_op {op : BinOp} (hop : op.level = .term) (hs : skipWhitespace s = op.char :: t)
    (hf : (factor vars t).1 = ⟨b, rest, []⟩) (hv : op.apply a b = some v) :
    (termLoop vars a s).1 = (termLoop vars v rest).1 := by
  rw [termLoop_eq, hs]
  dsimp only
  rw [hf]
  cases op with
  | add | sub => cases hop
  | mul =>
    cases hv
    exact if_pos rfl
  | div =>
    obtain ⟨hb, hv⟩ := Option.ite_none_left_eq_some.mp hv
    cases hv
    exact (if_neg (by decide)).trans ((if_pos rfl).trans (if_neg fun h => hb (.inl h)))
  | mod =>
    obtain ⟨hb, hv⟩ := Option.ite_none_left_eq_some.mp hv
    cases hv
    exact (if_neg (by decide)).trans ((if_neg (by decide)).trans ((if_pos rfl).trans (if_neg fun h => hb (.inl h))))

/-- An operator of `expr`. -/
theorem exprLoop_op {op : BinOp} (hop : op.level = .expr) (hs : skipWhitespace s = op.char :: t)
    (hf : (term vars t).1 = ⟨b, rest, []⟩) (hv : op.apply a b = some v) :
    (exprLoop vars a s).1 = (exprLoop vars v rest).1 := by
  rw [exprLoop_eq, hs]
  dsimp only
  rw [hf]
  cases op with
  | mul | div | mod => cases hop
  | add =>
    cases hv
    exact if_pos rfl
  | sub =>
    cases hv
    exact (if_neg (by decide)).trans (if_pos rfl)

/-- No digit follows. -/
def NoDigit (rest : List Byte) : Prop := ∀ b, rest.head? = some b → isDigit b = false

/-- No operator of `term` follows. -/
def NoMul (rest : List Byte) : Prop :=
  ∀ b, (skipWhitespace rest).head? = some b → b ≠ ascii '*' ∧ b ≠ ascii '/' ∧ b ≠ ascii '%'

theorem termLoop_stop (h : NoMul rest) : (termLoop vars v rest).1 = ⟨v, skipWhitespace rest, []⟩ := by
  rw [termLoop_eq]
  split
  · next hs => rw [hs]
  · next b t hs =>
      obtain ⟨h1, h2, h3⟩ := h b (by rw [hs]; rfl)
      rw [if_neg h1, if_neg h2, if_neg h3, hs]

/-- No operator follows. -/
theorem exprLoop_stop (h : ∀ b, (skipWhitespace rest).head? = some b → b ≠ ascii '+' ∧ b ≠ ascii '-') :
    (exprLoop vars v rest).1 = ⟨v, skipWhitespace rest, []⟩ := by
  rw [exprLoop_eq]
  split
  · next hs => rw [hs]
  · next b t hs =>
      obtain ⟨h1, h2⟩ := h b (by rw [hs]; rfl)
      rw [if_neg h1, if_neg h2, hs]

/-! ## Literals -/

theorem number_digits {ds : List Byte} (hd : ∀ b ∈ ds, isDigit b = true) (hr : NoDigit rest) (n : Nat) :
    number (BitVec.ofNat 32 n) (ds ++ rest) =
      (BitVec.ofNat 32 (ds.foldl (fun n b => 10 * n + (b.toNat - 48)) n), rest) := by
  induction ds generalizing n with
  | nil =>
    cases rest with
    | nil => rfl
    | cons b rest =>
      rw [List.nil_append, number, if_neg (by rw [hr b rfl]; nofun)]
      rfl
  | cons b ds ih =>
    obtain ⟨hb, hds⟩ := List.forall_mem_cons.mp hd
    have hval : BitVec.ofNat 32 n * 10 + BitVec.ofNat 32 (b.toNat - 48) =
        BitVec.ofNat 32 (10 * n + (b.toNat - 48)) := by
      rw [Nat.mul_comm, BitVec.ofNat_add, BitVec.ofNat_mul]
      rfl
    rw [List.cons_append, number, if_pos hb, hval, ih hds]
    rfl

theorem isDigit_iff {b : Byte} : isDigit b = true ↔ 48 ≤ b.toNat ∧ b.toNat ≤ 57 := by
  simp [isDigit, ascii, BitVec.le_def]

theorem letter_of_digit {b : Byte} (h : isDigit b = true) : letter b = none := by
  have := isDigit_iff.mp h
  exact dif_neg (by omega)

theorem isBlank_eq_false {b : Byte} (h : 32 < b.toNat) : isBlank b = false := by
  simp only [isBlank, decide_eq_false_iff_not, not_or]
  constructor <;> rintro rfl <;> exact absurd h (by decide)

/-! ## Round trip -/

/-- `factor`, `term` or `expr` on the text `s` with the value `v`, when `rest` follows. -/
def Reads (vars : Vars) (v : BitVec 32) (s : List Byte) : Level → Prop
  | .factor => ∀ w rest, Blank w → NoDigit rest →
      (factor vars (w ++ (s ++ rest))).1 = ⟨v, skipWhitespace rest, []⟩
  | .term => ∀ w rest, Blank w → NoDigit rest →
      (term vars (w ++ (s ++ rest))).1 = (termLoop vars v rest).1
  | .expr => ∀ w rest, Blank w → NoDigit rest → NoMul rest →
      (expr vars (w ++ (s ++ rest))).1 = (exprLoop vars v rest).1

theorem Blank.noDigit {w : List Byte} (hw : Blank w) (ht : NoDigit t) : NoDigit (w ++ t) := by
  cases w with
  | nil => exact ht
  | cons x w =>
    intro b hb
    cases hb
    have hx := hw x List.mem_cons_self
    rw [← Bool.not_eq_true]
    intro hd
    have := isDigit_iff.mp hd
    rw [isBlank_eq_false (by omega)] at hx
    cases hx

theorem noDigit_cons {c : Byte} (hc : isDigit c = false) (t : List Byte) : NoDigit (c :: t) := by
  intro b hb
  cases hb
  exact hc

theorem Renders.reads {l : Level} {e : Expr} (h : Renders l e s) (hv : e.eval vars = some v) : Reads vars v s l := by
  induction h generalizing v with
  | @lit ds hne hd =>
    intro w rest hw hr
    cases hv
    obtain ⟨b, ds, rfl⟩ := List.exists_cons_of_ne_nil hne
    have hb := hd b List.mem_cons_self
    have hlow := isDigit_iff.mp hb
    have hparen : b ≠ ascii '(' := by
      rintro rfl
      exact absurd hlow (by decide)
    rw [factor_eq, skipWhitespace_blank hw, List.cons_append, skipWhitespace_cons (isBlank_eq_false (by omega))]
    simp only [hparen, if_false, letter_of_digit hb, hb, if_true]
    have hnum := number_digits hd hr 0
    rw [List.cons_append] at hnum
    rw [show (0 : BitVec 32) = BitVec.ofNat 32 0 from rfl, hnum]
    rfl
  | @var b i hb =>
    intro w rest hw hr
    cases hv
    have hlow : 97 ≤ b.toNat := by
      by_contra hlt
      rw [letter, dif_neg (by omega)] at hb
      cases hb
    have hparen : b ≠ ascii '(' := by
      rintro rfl
      exact absurd hlow (by decide)
    rw [factor_eq, skipWhitespace_blank hw, List.singleton_append, skipWhitespace_cons (isBlank_eq_false (by omega))]
    simp only [hparen, if_false, hb]
  | @neg e w' s hw' h ih =>
    intro w rest hw hr
    obtain ⟨a, ha, rfl⟩ := Option.map_eq_some_iff.mp hv
    have hin : (Calculator.factor vars (w' ++ s ++ rest)).1 = ⟨a, skipWhitespace rest, []⟩ := by
      rw [List.append_assoc]
      exact ih ha w' rest hw' hr
    rw [factor_eq, skipWhitespace_blank hw, List.cons_append, skipWhitespace_cons (by decide)]
    simp only [show ascii '-' ≠ ascii '(' by decide, if_false, show letter (ascii '-') = none by decide,
      show isDigit (ascii '-') = false by decide, Bool.false_eq_true, if_true, hin, skipWhitespace_idem]
  | @paren e w₁ w₂ s hw₁ hw₂ h ih =>
    intro w rest hw hr
    have hclose : skipWhitespace (w₂ ++ ascii ')' :: rest) = ascii ')' :: rest := by
      rw [skipWhitespace_blank hw₂, skipWhitespace_cons (by decide)]
    have hin : (expr vars (w₁ ++ (s ++ (w₂ ++ [ascii ')'])) ++ rest)).1 = ⟨v, ascii ')' :: rest, []⟩ := by
      rw [List.append_assoc, List.append_assoc, List.append_assoc, List.singleton_append,
        ih hv w₁ _ hw₁ (hw₂.noDigit (noDigit_cons (by decide) rest)), exprLoop_stop, hclose]
      all_goals
        intro b hb
        rw [hclose] at hb
        cases hb
        decide
    rw [factor_eq, skipWhitespace_blank hw, List.cons_append, skipWhitespace_cons (by decide)]
    simp only [if_true, hin, skipWhitespace_cons (show isBlank (ascii ')') = false by decide)]
    rfl
  | @factor e s h ih =>
    intro w rest hw hr
    rw [term_eq, ih hv w rest hw hr]
    exact termLoop_skip vars v rest
  | @mul op l r w₁ w₂ s t hop hw₁ hw₂ hl hr ihl ihr =>
    intro w rest hw hrest
    obtain ⟨a, ha, hv⟩ := Option.bind_eq_some_iff.mp hv
    obtain ⟨b, hb, hv⟩ := Option.bind_eq_some_iff.mp hv
    have hchar : isDigit op.char = false ∧ isBlank op.char = false := by
      cases op <;> decide
    rw [List.append_assoc, List.append_assoc, List.cons_append, List.append_assoc,
      ihl ha w _ hw (hw₁.noDigit (noDigit_cons hchar.1 _)),
      termLoop_op hop (by rw [skipWhitespace_blank hw₁, skipWhitespace_cons hchar.2])
        (ihr hb w₂ rest hw₂ hrest) hv, termLoop_skip]
  | @term e s h ih =>
    intro w rest hw hr hm
    rw [expr_eq, ih hv w rest hw hr, termLoop_stop hm]
    exact exprLoop_skip vars v rest
  | @add op l r w₁ w₂ s t hop hw₁ hw₂ hl hr ihl ihr =>
    intro w rest hw hrest hm
    obtain ⟨a, ha, hv⟩ := Option.bind_eq_some_iff.mp hv
    obtain ⟨b, hb, hv⟩ := Option.bind_eq_some_iff.mp hv
    have hchar : isDigit op.char = false ∧ isBlank op.char = false := by
      cases op <;> decide
    have hskip : ∀ u, skipWhitespace (w₁ ++ op.char :: u) = op.char :: u := fun u => by
      rw [skipWhitespace_blank hw₁, skipWhitespace_cons hchar.2]
    rw [List.append_assoc, List.append_assoc, List.cons_append, List.append_assoc,
      ihl ha w _ hw (hw₁.noDigit (noDigit_cons hchar.1 _)),
      exprLoop_op hop (hskip _) ((ihr hb w₂ rest hw₂ hrest).trans (termLoop_stop hm)) hv, exprLoop_skip]
    intro c hc
    rw [hskip] at hc
    cases hc
    cases op with
    | mul | div | mod => cases hop
    | add | sub => decide

end

/-- `expr` on a text of an expression returns its value, stops at the end of the text and reports no error. -/
theorem expr_of_renders {vars : Vars} {e : Expr} {v : BitVec 32} {w s w' : List Byte} (h : Renders .expr e s)
    (hv : e.eval vars = some v) (hw : Blank w) (hw' : Blank w') :
    (expr vars (w ++ (s ++ w'))).1 = ⟨v, [], []⟩ := by
  have hend : skipWhitespace w' = [] := List.dropWhile_eq_nil_iff.mpr hw'
  have hdigit : NoDigit (w' ++ []) := hw'.noDigit nofun
  rw [List.append_nil] at hdigit
  rw [h.reads hv w w' hw hdigit, exprLoop_stop, hend]
  all_goals
    intro b hb
    rw [hend] at hb
    cases hb

/-- `1 + 2`. -/
theorem expr_of_renders_sum : (expr (fun _ => 0) [49, 32, 43, 32, 50]).1 = ⟨3, [], []⟩ := by
  have hone : Renders .factor (.lit (decimal [49])) [49] := .lit (by decide) (by decide)
  have htwo : Renders .factor (.lit (decimal [50])) [50] := .lit (by decide) (by decide)
  have hblank : Blank [32] := by decide
  have hnone : Blank [] := nofun
  have hsum : Renders .expr (.bin .add (.lit (decimal [49])) (.lit (decimal [50]))) [49, 32, 43, 32, 50] :=
    .add rfl hblank hblank (.term (.factor hone)) (.factor htwo)
  exact expr_of_renders hsum rfl hnone hnone

/-! ## Errors -/

/-- A divisor is 0 somewhere in the evaluation of the line. -/
def DividesByZero (vars : Vars) (line : List Byte) : Prop :=
  ∃ e, Printed.error e ∈ (evaluate vars line).2

/-- A number is printed for the line. -/
def PrintsNumber (out : List Printed) : Prop := ∃ v, Printed.value v ∈ out ∨ ∃ i, Printed.assigned i v ∈ out

/-- `evaluate` prints a number for every line that is not empty. -/
theorem printsNumber_evaluate {vars : Vars} {line : List Byte} (h : (evaluate vars line).2 ≠ []) :
    PrintsNumber (evaluate vars line).2 := by
  unfold evaluate at h ⊢
  dsimp only at h ⊢
  split
  · next hp =>
      rw [if_pos hp] at h
      exact absurd rfl h
  · split
    · exact ⟨_, .inr ⟨_, List.mem_append_right _ List.mem_cons_self⟩⟩
    · exact ⟨_, .inl (List.mem_append_right _ List.mem_cons_self)⟩

/-- A line leaves the variables alone and prints no number when it divides by zero, if and only if it does not
divide by zero. -/
theorem error_changes_nothing_iff (vars : Vars) (line : List Byte) :
    (DividesByZero vars line → (evaluate vars line).1 = vars ∧ ¬ PrintsNumber (evaluate vars line).2) ↔
      ¬ DividesByZero vars line := by
  constructor
  · intro h hd
    have ⟨e, he⟩ := hd
    exact (h hd).2 (printsNumber_evaluate (List.ne_nil_of_mem he))
  · exact fun h hd => absurd hd h

/-- `a = 1 / 0` sets `a`, which was 7, to 0, and prints so. -/
theorem division_by_zero_assigns :
    evaluate (fun _ => 7) [97, 61, 49, 47, 48] =
      (Function.update (fun _ => 7) 0 0, [.error .divisionByZero, .assigned 0 0]) := by
  have hzero : (factor (fun _ => 7) [48]).1 = ⟨0, [], []⟩ := by
    rw [factor_eq]
    rfl
  have hone : (factor (fun _ => 7) [49, 47, 48]).1 = ⟨1, [47, 48], []⟩ := by
    rw [factor_eq]
    rfl
  have hloop : (termLoop (fun _ => 7) 1 [47, 48]).1 = ⟨0, [], [.divisionByZero]⟩ := by
    rw [termLoop_eq, show skipWhitespace [47, 48] = [47, 48] from rfl]
    dsimp only
    rw [hzero]
    rfl
  have hterm : (term (fun _ => 7) [49, 47, 48]).1 = ⟨0, [], [.divisionByZero]⟩ := by
    rw [term_eq, hone]
    exact congrArg (Parsed.after []) hloop
  have hexpr : (expr (fun _ => 7) [49, 47, 48]).1 = ⟨0, [], [.divisionByZero]⟩ := by
    rw [expr_eq, hterm, exprLoop_eq]
    rfl
  have htarget : target (skipWhitespace [97, 61, 49, 47, 48]) = (some 0, [49, 47, 48]) := rfl
  unfold evaluate
  dsimp only
  rw [if_neg (by decide), htarget]
  dsimp only
  rw [hexpr]
  rfl

end MiniOS.Calculator
