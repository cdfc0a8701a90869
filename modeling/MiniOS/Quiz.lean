import MiniOS.Printf
import MiniOS.Sh
import Mathlib.Data.List.TakeWhile

/-!
# MiniOS.Quiz

The answer key of the quiz program, `main_code.c`: `createQuiz` copies it from
the files of the questions, `inputQuiz` writes it line by line, and `takeQuiz`
reads it back into an array of 25 characters.

`ICQuiz`, `IBQuiz`, `IEQuiz` and `MQuiz` differ in the directory of the files
and in a title.  Characters are read into a `char`, so the byte 0xff is taken
for `EOF`.
-/

namespace MiniOS.Quiz

open Sh (ascii)

/-- `EOF`, as a `char`. -/
def eof : Byte := 0xff

def newline : Byte := 10

/-- The characters of a literal. -/
def literal (s : String) : List Byte := s.toList.map ascii

/-- What a loop with `(ch = fgetc(f)) != EOF` reads. -/
def chars (file : List Byte) : List Byte := file.takeWhile (· ≠ eof)

/-- `%d` of a positive number. -/
def decimal (n : Nat) : List Byte := (digitLoop 10 20 n).reverse.map (BitVec.ofNat 8)

/-- A character that `ICQuiz` copies to the key of question `i + 1`. -/
def copied (i : Nat) (ch : Byte) : List Byte := if ch = ascii 'A' then ch :: decimal (i + 1) else [ch]

/-- What `ICQuiz` writes into the key for question `i + 1`. -/
def copyAnswer (i : Nat) (file : List Byte) : List Byte :=
  match (chars file).dropWhile (· ≠ ascii '$') with
  | [] => []
  | _ :: rest => rest.flatMap (copied i)

/-- The loop of `ICQuiz` over the questions. -/
def copyAnswers : Nat → List (List Byte) → List Byte
  | _, [] => []
  | i, file :: files => copyAnswer i file ++ copyAnswers (i + 1) files

/-- `Answers.txt` after `createQuiz`, with the files of the chosen questions. -/
def createKey (files : List (List Byte)) : List Byte := literal "Answers Key:" ++ copyAnswers 0 files

/-- `inputQuiz` reads a question up to its `$`, a character after it, and the answer. -/
def readAnswer (stdin : List Byte) : Byte × List Byte :=
  let rest := (stdin.dropWhile fun ch => ch ≠ ascii '$' ∧ ch ≠ eof).drop 2
  (rest.headD eof, rest.tail)

/-- The loop of `inputQuiz`: what it writes into the key. -/
def inputLoop : Nat → Nat → List Byte → List Byte
  | _, 0, _ => []
  | i, n + 1, stdin =>
    let (ch, stdin) := readAnswer stdin
    ascii 'A' :: (decimal (i + 1) ++ literal ". " ++ ch :: newline :: inputLoop (i + 1) n stdin)

/-- The answers that are typed in. -/
def typedAnswers : Nat → List Byte → List Byte
  | 0, _ => []
  | n + 1, stdin => (readAnswer stdin).1 :: typedAnswers n (readAnswer stdin).2

/-- `Answers.txt` after `inputQuiz`. -/
def inputKey (n : Nat) (stdin : List Byte) : List Byte := literal "Answers Key:\n" ++ inputLoop 0 n stdin

def isalpha (ch : Byte) : Bool := (65 ≤ ch.toNat ∧ ch.toNat ≤ 90) ∨ (97 ≤ ch.toNat ∧ ch.toNat ≤ 122)

/-- `isalpha(ch) && ch != 'A'`. -/
def isAnswer (ch : Byte) : Bool := isalpha ch && ch ≠ ascii 'A'

/-- What follows the first line. -/
def afterLine (key : List Byte) : List Byte := (key.dropWhile fun ch => ch ≠ newline ∧ ch ≠ eof).drop 1

/-- The characters that `takeQuiz` stores in `ans`. -/
def readAnswers (key : List Byte) : List Byte := (chars (afterLine key)).filter isAnswer

/-- The indices of the writes to `ans`, the last one for the terminator. -/
def ansWrites (key : List Byte) : List Nat := List.range ((readAnswers key).length + 1)

/-- `takeQuiz` reads the answers back and stays inside of `char ans[25]`. -/
def RoundTrips (key answers : List Byte) : Prop := readAnswers key = answers ∧ ∀ i ∈ ansWrites key, i < 25

def IsLower (ch : Byte) : Prop := 97 ≤ ch.toNat ∧ ch.toNat ≤ 122

instance (ch : Byte) : Decidable (IsLower ch) := inferInstanceAs (Decidable (_ ∧ _))

/-- A file that ends with a line of a dollar sign and an answer. -/
structure Question where
  file : List Byte
  text : List Byte
  blank : List Byte
  answer : Byte
  ends : chars file = text ++ ascii '$' :: (blank ++ newline :: (literal "A. " ++ [answer]))
  blank_eq : ∀ ch ∈ blank, ch = 32 ∨ ch = 9 ∨ ch = 13
  lower : IsLower answer

/-- The part of a question after a dollar sign in it. -/
def Question.spill (q : Question) : List Byte := (q.text.dropWhile (· ≠ ascii '$')).drop 1

/-- No letter of a question is taken for an answer. -/
def Clean : List Question → Prop
  | [] => True
  | q :: qs => (∀ ch ∈ afterLine q.spill, isAnswer ch = false) ∧ ∀ q ∈ qs, ∀ ch ∈ q.spill, isAnswer ch = false

/-! ## What is copied -/

section
variable {ch : Byte} {i n : Nat} {xs ys : List Byte}

theorem mem_digitLoop {c fuel x : Nat} (h : c ∈ digitLoop 10 fuel x) : 48 ≤ c ∧ c ≤ 57 := by
  induction fuel generalizing x with
  | zero => simp [digitLoop] at h
  | succ fuel ih =>
    rw [digitLoop, List.mem_cons] at h
    rcases h with rfl | h
    · have := Nat.mod_lt x (by decide : 10 > 0)
      rw [digit, if_pos this]; omega
    · split at h
      · cases h
      · exact ih h

theorem mem_decimal (h : ch ∈ decimal n) : 48 ≤ ch.toNat ∧ ch.toNat ≤ 57 := by
  obtain ⟨c, hc, rfl⟩ := List.mem_map.mp h
  have := mem_digitLoop (List.mem_reverse.mp hc)
  rw [BitVec.toNat_ofNat]
  omega

/-- A digit is none of the characters that are looked for. -/
theorem of_mem_decimal (h : ch ∈ decimal n) : isAnswer ch = false ∧ ch ≠ newline ∧ ch ≠ eof := by
  obtain ⟨hlo, hhi⟩ := mem_decimal h
  refine ⟨by simp [isAnswer, isalpha]; omega, ?_, ?_⟩ <;>
    · rintro rfl
      revert hlo hhi
      decide

theorem filter_decimal : (decimal n).filter isAnswer = [] := by
  rw [List.filter_eq_nil_iff]
  intro ch h
  simp [(of_mem_decimal h).1]

theorem filter_copied : (xs.flatMap (copied i)).filter isAnswer = xs.filter isAnswer := by
  induction xs with
  | nil => rfl
  | cons ch xs ih =>
    rw [List.flatMap_cons, List.filter_append, ih, copied]
    split
    · next h => simp [h, filter_decimal, isAnswer]
    · simp [List.filter_cons]
      split <;> rfl

theorem eof_not_mem_copied (h : eof ∉ xs) : eof ∉ xs.flatMap (copied i) := by
  intro hm
  obtain ⟨ch, hch, hm⟩ := List.mem_flatMap.mp hm
  unfold copied at hm
  split at hm
  · rcases List.mem_cons.mp hm with rfl | hm
    · exact h hch
    · exact (of_mem_decimal hm).2.2 rfl
  · rw [List.mem_singleton] at hm
    exact h (hm ▸ hch)

theorem IsLower.isAnswer (h : IsLower ch) : isAnswer ch = true := by
  have hne : ch ≠ ascii 'A' := by
    rintro rfl
    exact absurd h.1 (by decide)
  simpa [Quiz.isAnswer, isalpha, hne] using .inr h

theorem afterLine_cons : afterLine (ch :: xs) = if ch = newline ∨ ch = eof then xs else afterLine xs := by
  unfold afterLine
  rw [List.dropWhile_cons]
  by_cases h : ch = newline ∨ ch = eof <;> simp [h, ← not_or]

theorem afterLine_append (h : ∀ ch ∈ xs, ch ≠ newline ∧ ch ≠ eof) : afterLine (xs ++ ys) = afterLine ys := by
  induction xs with
  | nil => rfl
  | cons ch xs ih =>
    rw [List.cons_append, afterLine_cons, if_neg (not_or.mpr (h ch (by simp)))]
    exact ih fun ch hch => h ch (by simp [hch])

/-- The numbers that are put in do not change where the first line ends. -/
theorem afterLine_copied (hline : newline ∈ xs) (heof : eof ∉ xs) :
    afterLine (xs.flatMap (copied i) ++ ys) = (afterLine xs).flatMap (copied i) ++ ys := by
  induction xs with
  | nil => cases hline
  | cons ch xs ih =>
    have hch : ch ≠ eof := fun h => heof (by simp [h])
    rw [List.flatMap_cons, List.append_assoc, afterLine_cons]
    by_cases hnl : ch = newline
    · have hcopied : copied i ch = [ch] := by
        subst hnl
        exact if_neg (by decide)
      rw [hcopied, List.singleton_append, afterLine_cons, if_pos (.inl hnl), if_pos (.inl hnl)]
    · rw [if_neg (not_or.mpr ⟨hnl, hch⟩), afterLine_append]
      · exact ih (by simpa [Ne.symm hnl] using hline) fun h => heof (by simp [h])
      · intro c hc
        unfold copied at hc
        split at hc
        · rcases List.mem_cons.mp hc with rfl | hc
          · exact ⟨hnl, hch⟩
          · exact (of_mem_decimal hc).2
        · rw [List.mem_singleton.mp hc]
          exact ⟨hnl, hch⟩

/-- The answers after the first line, when the line of the dollar sign follows `xs`. -/
theorem filter_afterLine {v z : List Byte} (heof : eof ∉ xs)
    (hv : ∀ ch ∈ v, (ch ≠ newline ∧ ch ≠ eof) ∧ isAnswer ch = false) :
    (afterLine (xs ++ (v ++ newline :: z))).filter isAnswer =
      (afterLine xs).filter isAnswer ++ z.filter isAnswer := by
  induction xs with
  | nil =>
    rw [List.nil_append, afterLine_append fun ch hch => (hv ch hch).1, afterLine_cons, if_pos (.inl rfl)]
    rfl
  | cons ch xs ih =>
    rw [List.cons_append, afterLine_cons, afterLine_cons]
    have hch : ch ≠ eof := fun h => heof (by simp [h])
    split
    · have hv' : v.filter isAnswer = [] := List.filter_eq_nil_iff.mpr fun ch hch => by simp [(hv ch hch).2]
      have hnl : isAnswer newline = false := by decide
      simp [hv', hnl]
    · exact ih fun h => heof (by simp [h])

end

/-! ## The key of `createQuiz` -/

namespace Question

variable (q : Question)

/-- What is copied of a file: the rest of the question after a dollar sign in it, the rest of the
line of the dollar sign, and the answer. -/
theorem exists_copied : ∃ v, (∀ ch ∈ v, (ch ≠ newline ∧ ch ≠ eof) ∧ isAnswer ch = false) ∧
    eof ∉ q.spill ++ (v ++ newline :: (literal "A. " ++ [q.answer])) ∧ ∀ i, copyAnswer i q.file =
      (q.spill ++ (v ++ newline :: (literal "A. " ++ [q.answer]))).flatMap (copied i) := by
  have hblank : ∀ ch ∈ q.blank, (ch ≠ newline ∧ ch ≠ eof) ∧ isAnswer ch = false := by
    intro ch hch
    rcases q.blank_eq ch hch with rfl | rfl | rfl <;> decide
  have heof : eof ∉ chars q.file := fun h => by simpa using List.mem_takeWhile_imp h
  -- up to the first dollar sign nothing is copied
  obtain ⟨v, hv, hdrop⟩ : ∃ v, (∀ ch ∈ v, (ch ≠ newline ∧ ch ≠ eof) ∧ isAnswer ch = false) ∧
      (chars q.file).dropWhile (· ≠ ascii '$') =
        ascii '$' :: (q.spill ++ (v ++ newline :: (literal "A. " ++ [q.answer]))) := by
    rw [q.ends, spill]
    by_cases hd : q.text.dropWhile (· ≠ ascii '$') = []
    · refine ⟨q.blank, hblank, ?_⟩
      rw [List.dropWhile_append_of_pos fun ch hch => List.dropWhile_eq_nil_iff.mp hd ch hch, hd]
      simp
    · refine ⟨ascii '$' :: q.blank, List.forall_mem_cons.mpr ⟨by decide, hblank⟩, ?_⟩
      rw [List.dropWhile_append, if_neg (by simpa using hd)]
      cases hs : q.text.dropWhile (· ≠ ascii '$') with
      | nil => exact absurd hs hd
      | cons ch rest =>
        have hch := List.head_dropWhile_not (fun ch => decide (ch ≠ ascii '$')) (l := q.text) hd
        simp only [hs, List.head_cons] at hch
        simp_all
  refine ⟨v, hv, fun h => heof (List.dropWhile_subset _ (hdrop ▸ List.mem_cons_of_mem _ h)), fun i => ?_⟩
  rw [copyAnswer, hdrop]

theorem filter_answer : (literal "A. " ++ [q.answer]).filter isAnswer = [q.answer] := by
  have hlit : (literal "A. ").filter isAnswer = [] := by decide
  simp [hlit, q.lower.isAnswer]

theorem filter_copyAnswer (i : Nat) :
    (copyAnswer i q.file).filter isAnswer = q.spill.filter isAnswer ++ [q.answer] := by
  obtain ⟨v, hv, -, hcopy⟩ := q.exists_copied
  have hv' : v.filter isAnswer = [] := List.filter_eq_nil_iff.mpr fun ch hch => by simp [(hv ch hch).2]
  have hnl : isAnswer newline = false := by decide
  rw [hcopy, filter_copied, List.filter_append, List.filter_append, hv', List.filter_cons, hnl, q.filter_answer]
  rfl

theorem filter_afterLine_copyAnswer (ys : List Byte) :
    (afterLine (copyAnswer 0 q.file ++ ys)).filter isAnswer =
      (afterLine q.spill).filter isAnswer ++ q.answer :: ys.filter isAnswer := by
  obtain ⟨v, hv, heof, hcopy⟩ := q.exists_copied
  have heof' : eof ∉ q.spill := fun h => heof (List.mem_append_left _ h)
  rw [hcopy, afterLine_copied (by simp) heof, List.filter_append, filter_copied, filter_afterLine heof' hv,
    q.filter_answer, List.append_assoc]
  rfl

theorem eof_not_mem_copyAnswer (i : Nat) : eof ∉ copyAnswer i q.file := by
  obtain ⟨v, -, heof, hcopy⟩ := q.exists_copied
  rw [hcopy]
  exact eof_not_mem_copied heof

end Question

section
variable {n i : Nat} {qs : List Question} {xs : List Byte}

theorem eof_not_mem_copyAnswers : eof ∉ copyAnswers i (qs.map (·.file)) := by
  induction qs generalizing i with
  | nil => exact List.not_mem_nil
  | cons q qs ih => simpa [copyAnswers] using ⟨q.eof_not_mem_copyAnswer i, ih⟩

theorem filter_copyAnswers : (copyAnswers i (qs.map (·.file))).filter isAnswer =
    (qs.map fun q => (q.spill.filter isAnswer, q.answer)).flatMap fun p => p.1 ++ [p.2] := by
  induction qs generalizing i with
  | nil => rfl
  | cons q qs ih => simp [copyAnswers, q.filter_copyAnswer, ih]

theorem chars_eq_self (h : eof ∉ xs) : chars xs = xs :=
  List.takeWhile_eq_self_iff.mpr fun ch hch => by
    simp only [decide_eq_true_eq]
    rintro rfl
    exact h hch

theorem readAnswers_eq {pre : List Byte} (hpre : ∀ ch ∈ pre, ch ≠ newline ∧ ch ≠ eof) (h : eof ∉ xs) :
    readAnswers (pre ++ xs) = (afterLine xs).filter isAnswer := by
  rw [readAnswers, afterLine_append hpre, chars_eq_self]
  exact fun hm => h (List.dropWhile_subset _ (List.drop_subset _ _ hm))

/-- The strays and the answers are the answers if there are no strays. -/
theorem flatMap_eq_map_iff {ps : List (List Byte × Byte)} :
    (ps.flatMap fun p => p.1 ++ [p.2]) = ps.map (·.2) ↔ ∀ p ∈ ps, p.1 = [] := by
  have hlen : ∀ ps : List (List Byte × Byte), ps.length ≤ (ps.flatMap fun p => p.1 ++ [p.2]).length := by
    intro ps
    induction ps with
    | nil => exact Nat.le_refl 0
    | cons p ps ih => simp at ih ⊢; omega
  constructor
  · intro h
    induction ps with
    | nil => simp
    | cons p ps ih =>
      have hp : p.1 = [] := by
        have := congrArg List.length h
        have := hlen ps
        simp only [List.flatMap_cons, List.map_cons, List.length_append, List.length_cons, List.length_map,
          List.length_nil] at *
        exact List.length_eq_zero_iff.mp (by omega)
      simp only [List.flatMap_cons, hp, List.nil_append, List.singleton_append, List.map_cons,
        List.cons.injEq, true_and] at h
      exact List.forall_mem_cons.mpr ⟨hp, ih h⟩
  · intro h
    induction ps with
    | nil => rfl
    | cons p ps ih =>
      obtain ⟨hp, hps⟩ := List.forall_mem_cons.mp h
      simp [hp, ih hps]

theorem writes_lt_iff (key : List Byte) : (∀ i ∈ ansWrites key, i < 25) ↔ (readAnswers key).length < 25 := by
  simp only [ansWrites, List.mem_range]
  exact ⟨fun h => h _ (Nat.lt_succ_self _), fun h i hi => by omega⟩

theorem header_ok : ∀ ch ∈ literal "Answers Key:", ch ≠ newline ∧ ch ≠ eof := by decide

theorem roundTrips_createKey {q : Question} : RoundTrips (createKey ((q :: qs).map (·.file))) ((q :: qs).map (·.answer)) ↔
    (q :: qs).length < 25 ∧ Clean (q :: qs) := by
  have hread : readAnswers (createKey ((q :: qs).map (·.file))) =
      (((afterLine q.spill).filter isAnswer, q.answer) ::
        qs.map fun q => (q.spill.filter isAnswer, q.answer)).flatMap fun p => p.1 ++ [p.2] := by
    have heof : eof ∉ copyAnswers 0 ((q :: qs).map (·.file)) := eof_not_mem_copyAnswers
    rw [createKey, readAnswers_eq header_ok heof, List.map_cons, copyAnswers, q.filter_afterLine_copyAnswer,
      filter_copyAnswers, List.flatMap_cons, List.append_assoc]
    rfl
  have hclean : Clean (q :: qs) ↔ ∀ p ∈ ((afterLine q.spill).filter isAnswer, q.answer) ::
      qs.map fun q => (q.spill.filter isAnswer, q.answer), p.1 = [] := by
    simp [Clean, List.filter_eq_nil_iff]
  have hanswers : (q :: qs).map (·.answer) = (((afterLine q.spill).filter isAnswer, q.answer) ::
      qs.map fun q => (q.spill.filter isAnswer, q.answer)).map (·.2) := by
    simp
  rw [RoundTrips, writes_lt_iff, hread, hclean, hanswers, ← flatMap_eq_map_iff]
  constructor
  · rintro ⟨heq, hlen⟩
    rw [heq] at hlen
    exact ⟨by simpa using hlen, heq⟩
  · rintro ⟨hlen, heq⟩
    refine ⟨heq, ?_⟩
    rw [heq]
    simpa using hlen

/-! ## The key of `inputQuiz` -/

theorem length_typedAnswers (stdin : List Byte) : (typedAnswers n stdin).length = n := by
  induction n generalizing stdin with
  | zero => rfl
  | succ n ih => simp [typedAnswers, ih]

theorem filter_inputLoop {stdin : List Byte} (h : ∀ ch ∈ typedAnswers n stdin, IsLower ch) :
    (inputLoop i n stdin).filter isAnswer = typedAnswers n stdin ∧ eof ∉ inputLoop i n stdin := by
  induction n generalizing i stdin with
  | zero => exact ⟨rfl, List.not_mem_nil⟩
  | succ n ih =>
    obtain ⟨hch, hrest⟩ := List.forall_mem_cons.mp h
    obtain ⟨hfilter, heof⟩ := ih (i := i + 1) hrest
    have hA : isAnswer (ascii 'A') = false := by decide
    have hnl : isAnswer newline = false := by decide
    have hlit : (literal ". ").filter isAnswer = [] := by decide
    rw [inputLoop]
    dsimp only
    constructor
    · simp [hA, hnl, hlit, filter_decimal, hch.isAnswer, hfilter, typedAnswers]
    · have hdec : eof ∉ decimal (i + 1) := fun h => (of_mem_decimal h).2.2 rfl
      have hne : (readAnswer stdin).1 ≠ eof := fun he => absurd hch.2 (by rw [he]; decide)
      have heofs : eof ≠ ascii 'A' ∧ eof ∉ literal ". " ∧ eof ≠ newline := by decide
      simp [hdec, hne.symm, heofs, heof]

theorem roundTrips_inputKey {stdin : List Byte} (h : ∀ ch ∈ typedAnswers n stdin, IsLower ch) :
    RoundTrips (inputKey n stdin) (typedAnswers n stdin) ↔ n < 25 := by
  obtain ⟨hfilter, heof⟩ := filter_inputLoop (i := 0) h
  have hread : readAnswers (inputKey n stdin) = typedAnswers n stdin := by
    have hline : inputKey n stdin = literal "Answers Key:" ++ newline :: inputLoop 0 n stdin := rfl
    rw [hline, readAnswers_eq header_ok (by simp [heof]; decide), afterLine_cons, if_pos (.inl rfl), hfilter]
  rw [RoundTrips, writes_lt_iff, hread, length_typedAnswers]
  simp

end

/-- The key comes back, and `ans` is large enough, exactly if there are less than 25 questions and, with
`createQuiz`, no letter after a dollar sign in a question is taken for an answer. -/
theorem quiz_roundTrips_iff (qs : List Question) (n : Nat) (stdin : List Byte) :
    (1 ≤ qs.length → qs.length ≤ 25 →
      (RoundTrips (createKey (qs.map (·.file))) (qs.map (·.answer)) ↔ qs.length < 25 ∧ Clean qs)) ∧
    (1 ≤ n → (∀ ch ∈ typedAnswers n stdin, IsLower ch) →
      (RoundTrips (inputKey n stdin) (typedAnswers n stdin) ↔ n < 25)) := by
  constructor
  · intro hpos _
    cases qs with
    | nil => simp at hpos
    | cons q qs => exact roundTrips_createKey
  · intro _ h
    exact roundTrips_inputKey h

/-- `$`, a new line, and the answer `b`. -/
def shortest : Question where
  file := literal "$\nA. b"
  text := []
  blank := []
  answer := ascii 'b'
  ends := by decide
  blank_eq := nofun
  lower := by decide

theorem quiz_roundTrips_two : RoundTrips (createKey [shortest.file, shortest.file]) [ascii 'b', ascii 'b'] :=
  ((quiz_roundTrips_iff [shortest, shortest] 0 []).1 (by decide) (by decide)).mpr
    ⟨by decide, nofun, by simp [shortest, Question.spill]⟩

/-- With 25 questions the terminator is written behind the array. -/
theorem quiz_overruns : 25 ∈ ansWrites (createKey ((List.replicate 25 shortest).map (·.file))) ∧
    ¬ RoundTrips (createKey ((List.replicate 25 shortest).map (·.file))) ((List.replicate 25 shortest).map (·.answer)) := by
  have hmem : 25 ∈ ansWrites (createKey ((List.replicate 25 shortest).map (·.file))) := by decide +kernel
  exact ⟨hmem, fun h => absurd (h.2 25 hmem) (by decide)⟩

end MiniOS.Quiz
