import MiniOS.Riscv
import Mathlib.Computability.Language

/-!
# MiniOS.Grep

The matcher of `user/grep.c`, and the language of its patterns.  A C string is
the list of its bytes before the 0.
-/

namespace MiniOS.Grep

open Computability

def caret : Byte := 94

def dollar : Byte := 36

def star : Byte := 42

def dot : Byte := 46

/-! ## The matcher -/

mutual

def matchhere (re text : List Byte) : Bool :=
  match re with
  | [] => true
  | c :: re =>
    if re.head? = some star then matchstar c re.tail text
    else if c = dollar ∧ re = [] then text = []
    else
      match text with
      | [] => false
      | t :: text => if c = dot ∨ c = t then matchhere re text else false
termination_by (re.length, text.length, 0)

def matchstar (c : Byte) (re text : List Byte) : Bool :=
  if matchhere re text then true
  else
    match text with
    | [] => false
    | t :: text => if t = c ∨ c = dot then matchstar c re text else false
termination_by (re.length, text.length, 1)

end

/-- The loop of `match`. -/
def matchFrom (re : List Byte) : List Byte → Bool
  | [] => matchhere re []
  | t :: text => if matchhere re (t :: text) then true else matchFrom re text

/-- `match`. -/
def matchText (re text : List Byte) : Bool :=
  if re.head? = some caret then matchhere re.tail text else matchFrom re text

/-! ## Patterns -/

/-- A character, or a character with a star. -/
inductive Item
  | one (c : Byte)
  | many (c : Byte)

/-- A pattern without its `^`; `atEnd` tells whether it ends with `$`. -/
structure Pattern where
  items : List Item
  atEnd : Bool

/-- The pattern, read from left to right. -/
def Pattern.read : List Byte → Pattern
  | [] => ⟨[], false⟩
  | [c] => if c = dollar then ⟨[], true⟩ else ⟨[.one c], false⟩
  | c :: d :: re =>
    if d = star then
      let p := read re
      ⟨.many c :: p.items, p.atEnd⟩
    else
      let p := read (d :: re)
      ⟨.one c :: p.items, p.atEnd⟩

/-- One character that `c` stands for. -/
def symbol (c : Byte) : Language Byte := {w | ∃ x, w = [x] ∧ (c = dot ∨ c = x)}

def Item.language : Item → Language Byte
  | .one c => symbol c
  | .many c => (symbol c)∗

def Pattern.language (p : Pattern) : Language Byte := (p.items.map Item.language).prod

/-- The text starts with a word of the language, which ends where the text ends if the pattern asks for it. -/
def Pattern.Starts (p : Pattern) (text : List Byte) : Prop :=
  ∃ sub post, text = sub ++ post ∧ sub ∈ p.language ∧ (p.atEnd = true → post = [])

theorem mem_kstar_symbol {c : Byte} {w : List Byte} : w ∈ (symbol c)∗ ↔ ∀ x ∈ w, c = dot ∨ c = x := by
  rw [Language.mem_kstar]
  constructor
  · rintro ⟨ws, rfl, hws⟩ x hx
    obtain ⟨u, hu, hx⟩ := List.mem_flatten.mp hx
    obtain ⟨y, rfl, hy⟩ := hws u hu
    rwa [List.mem_singleton.mp hx]
  · intro h
    refine ⟨w.map fun x => [x], ?_, ?_⟩
    · induction w with
      | nil => rfl
      | cons x w ih =>
        have hw := ih fun y hy => h y (List.mem_cons_of_mem x hy)
        rw [List.map_cons, List.flatten_cons, ← hw]
        rfl
    · intro u hu
      obtain ⟨x, hx, rfl⟩ := List.mem_map.mp hu
      exact ⟨x, rfl, h x hx⟩

/-- A first item takes a word of its language. -/
theorem starts_cons {i : Item} {p : Pattern} {text : List Byte} :
    Pattern.Starts ⟨i :: p.items, p.atEnd⟩ text ↔
      ∃ u v, text = u ++ v ∧ u ∈ i.language ∧ p.Starts v := by
  simp only [Pattern.Starts, Pattern.language, List.map_cons, List.prod_cons]
  constructor
  · rintro ⟨sub, post, rfl, hsub, hend⟩
    obtain ⟨u, hu, w, hw, rfl⟩ := Language.mem_mul.mp hsub
    exact ⟨u, w ++ post, List.append_assoc u w post, hu, w, post, rfl, hw, hend⟩
  · rintro ⟨u, v, rfl, hu, w, post, rfl, hw, hend⟩
    refine ⟨u ++ w, post, (List.append_assoc u w post).symm, ?_, hend⟩
    exact Language.mem_mul.mpr ⟨u, hu, w, hw, rfl⟩

theorem starts_nil (text : List Byte) : Pattern.Starts ⟨[], false⟩ text :=
  ⟨[], text, rfl, Language.mem_one [] |>.mpr rfl, nofun⟩

theorem starts_end {text : List Byte} : Pattern.Starts ⟨[], true⟩ text ↔ text = [] := by
  constructor
  · rintro ⟨sub, post, rfl, hsub, hend⟩
    rw [hend rfl, List.append_nil]
    exact (Language.mem_one sub).mp hsub
  · rintro rfl
    exact ⟨[], [], rfl, (Language.mem_one []).mpr rfl, fun _ => rfl⟩

/-- A character takes the first character of the text. -/
theorem starts_one {c : Byte} {p : Pattern} {text : List Byte} :
    Pattern.Starts ⟨.one c :: p.items, p.atEnd⟩ text ↔
      ∃ t rest, text = t :: rest ∧ (c = dot ∨ c = t) ∧ p.Starts rest := by
  rw [starts_cons]
  constructor
  · rintro ⟨-, v, rfl, ⟨x, rfl, hx⟩, hv⟩
    exact ⟨x, v, rfl, hx, hv⟩
  · rintro ⟨t, rest, rfl, ht, hrest⟩
    exact ⟨[t], rest, rfl, ⟨t, rfl, ht⟩, hrest⟩

/-! ## Correctness -/

theorem matchhere_cons (c : Byte) (re text : List Byte) :
    matchhere (c :: re) text =
      if re.head? = some star then matchstar c re.tail text
      else if c = dollar ∧ re = [] then decide (text = [])
      else
        match text with
        | [] => false
        | t :: text => if c = dot ∨ c = t then matchhere re text else false := by
  rw [matchhere.eq_def]

/-- `matchstar` tries every number of repetitions. -/
theorem matchstar_iff {c : Byte} {re : List Byte} {p : Pattern}
    (h : ∀ text, matchhere re text = true ↔ p.Starts text) (text : List Byte) :
    matchstar c re text = true ↔ Pattern.Starts ⟨.many c :: p.items, p.atEnd⟩ text := by
  simp only [starts_cons, Item.language, mem_kstar_symbol]
  induction text with
  | nil =>
    rw [matchstar]
    simp [h]
  | cons t text ih =>
    rw [matchstar]
    by_cases hh : matchhere re (t :: text) = true
    · simp only [hh, if_true, true_iff]
      exact ⟨[], t :: text, rfl, nofun, (h _).mp hh⟩
    · have hnot : ¬ p.Starts (t :: text) := mt (h _).mpr hh
      rw [if_neg hh]
      constructor
      · intro hs
        by_cases ht : t = c ∨ c = dot
        · rw [if_pos ht] at hs
          obtain ⟨u, v, rfl, hu, hv⟩ := ih.mp hs
          refine ⟨t :: u, v, rfl, fun x hx => ?_, hv⟩
          rcases List.mem_cons.mp hx with rfl | hx
          · exact ht.symm.imp_right Eq.symm
          · exact hu x hx
        · rw [if_neg ht] at hs
          cases hs
      · rintro ⟨u, v, he, hu, hv⟩
        cases u with
        | nil => exact absurd (he ▸ hv) hnot
        | cons x u =>
          obtain ⟨rfl, rfl⟩ := List.cons.inj he
          have ht := hu t List.mem_cons_self
          rw [if_pos (ht.symm.imp_left Eq.symm)]
          exact ih.mpr ⟨u, v, rfl, fun y hy => hu y (List.mem_cons_of_mem t hy), hv⟩

theorem matchhere_iff (re text : List Byte) : matchhere re text = true ↔ (Pattern.read re).Starts text := by
  induction re using Pattern.read.induct generalizing text with
  | case1 => simp [matchhere.eq_def, Pattern.read, starts_nil]
  | case2 => simp [matchhere_cons, Pattern.read, starts_end]
  | case3 c hc =>
    rw [matchhere_cons, Pattern.read, if_neg hc, starts_one (p := ⟨[], false⟩)]
    simp only [List.head?_nil, reduceCtorEq, if_false, hc, false_and]
    cases text with
    | nil => simp
    | cons t text => simp [starts_nil, matchhere.eq_def]
  | case4 c re ih =>
    rw [matchhere_cons, Pattern.read]
    simp only [List.head?_cons, List.tail_cons, if_true]
    exact matchstar_iff ih text
  | case5 c d re hd ih =>
    rw [matchhere_cons, Pattern.read, if_neg hd, starts_one]
    simp only [List.head?_cons, Option.some.injEq, hd, if_false, List.cons_ne_nil, and_false]
    cases text with
    | nil => simp
    | cons t text => simp [ih]

theorem matchFrom_iff (re text : List Byte) :
    matchFrom re text = true ↔ ∃ pre rest, text = pre ++ rest ∧ matchhere re rest = true := by
  induction text with
  | nil => simp [matchFrom]
  | cons t text ih =>
    rw [matchFrom]
    constructor
    · intro h
      split at h
      · next hh => exact ⟨[], t :: text, rfl, hh⟩
      · obtain ⟨pre, rest, rfl, hrest⟩ := ih.mp h
        exact ⟨t :: pre, rest, rfl, hrest⟩
    · rintro ⟨pre, rest, he, hrest⟩
      split
      · rfl
      · next hh =>
          cases pre with
          | nil => exact absurd (he ▸ hrest) hh
          | cons x pre =>
            obtain ⟨rfl, rfl⟩ := List.cons.inj he
            exact ih.mpr ⟨pre, rest, rfl, hrest⟩

/-- The pattern without the `^` it may start with. -/
def dropCaret (re : List Byte) : List Byte := if re.head? = some caret then re.tail else re

/-- `match` finds a part of the text that is in the language of the pattern. -/
theorem matchText_iff (re text : List Byte) :
    matchText re text = true ↔ ∃ pre sub post, text = pre ++ sub ++ post ∧
      (re.head? = some caret → pre = []) ∧ sub ∈ (Pattern.read (dropCaret re)).language ∧
      ((Pattern.read (dropCaret re)).atEnd = true → post = []) := by
  unfold matchText dropCaret
  split
  · next h =>
      rw [matchhere_iff]
      constructor
      · rintro ⟨sub, post, rfl, hsub, hend⟩
        exact ⟨[], sub, post, rfl, fun _ => rfl, hsub, hend⟩
      · rintro ⟨pre, sub, post, rfl, hpre, hsub, hend⟩
        rw [hpre h]
        exact ⟨sub, post, rfl, hsub, hend⟩
  · next h =>
      simp only [matchFrom_iff, matchhere_iff]
      constructor
      · rintro ⟨pre, -, rfl, sub, post, rfl, hsub, hend⟩
        exact ⟨pre, sub, post, (List.append_assoc _ _ _).symm, fun hc => absurd hc h, hsub, hend⟩
      · rintro ⟨pre, sub, post, rfl, -, hsub, hend⟩
        exact ⟨pre, sub ++ post, List.append_assoc _ _ _, sub, post, rfl, hsub, hend⟩

end MiniOS.Grep
