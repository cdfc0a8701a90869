import MiniOS.Sh
import Mathlib.Data.List.TakeWhile
import Mathlib.Data.List.GetD

/-!
# MiniOS.Sh.Tokens

`gettoken` and `peek` read the tokens of the line: `At line s ts` says that from
position `s` on the tokens `ts` are to come.
-/

namespace MiniOS.Sh

/-- From `s` on the line has the tokens `ts`. -/
structure At (line : List Byte) (s : Nat) (ts : List Tok) : Prop where
  le : s ≤ line.length
  toks : lex s (line.drop s) = ts

/-! ## Scanning -/

section
variable {line : List Byte} {p : Byte → Bool} {s : Nat}

theorem ch_eq (line : List Byte) (s : Nat) : ch line s = (line.drop s).headD 0 := by
  rw [ch, List.headD_eq_head?_getD, List.head?_drop, List.getD_eq_getElem?_getD]

variable {n : Nat} {c : Byte} {cs w : List Byte} {ts : List Tok}

/-- A loop stops after the bytes that have the property. -/
theorem scan_eq (hn : line.length - s ≤ n) :
    scan line p n s = s + ((line.drop s).takeWhile p).length := by
  induction n generalizing s with
  | zero =>
    rw [scan, List.drop_eq_nil_of_le (by omega)]
    rfl
  | succ n ih =>
    unfold scan
    rcases Nat.lt_or_ge s line.length with hs | hs
    · have hdrop : line.drop s = line.get ⟨s, hs⟩ :: line.drop (s + 1) := List.drop_eq_getElem_cons hs
      have hch : ch line s = line.get ⟨s, hs⟩ := List.getD_eq_getElem _ _ hs
      rw [hch, hdrop, List.takeWhile_cons]
      by_cases hp : p (line.get ⟨s, hs⟩) = true
      · rw [if_pos ⟨hs, hp⟩, if_pos hp, ih (by omega), List.length_cons]
        omega
      · rw [if_neg fun h => hp h.2, if_neg hp]
        rfl
    · rw [if_neg (by omega), List.drop_eq_nil_of_le hs]
      rfl

theorem drop_scan (hn : line.length - s ≤ n) :
    line.drop (scan line p n s) = (line.drop s).dropWhile p := by
  rw [scan_eq hn, ← List.drop_drop]
  generalize line.drop s = cs
  have := @List.drop_left _ (cs.takeWhile p) (cs.dropWhile p)
  rwa [List.takeWhile_append_dropWhile] at this

/-! ## The lexer -/

theorem lex_space (i : Nat) (h : strchr whitespace c = true) :
    lex i (c :: cs) = lex (i + 1) cs := by
  cases cs with
  | nil => simp only [lex, h, if_true]
  | cons d cs => rw [lex, if_pos h]

theorem lex_spaces {ws : List Byte} (i : Nat) (h : ∀ c ∈ ws, strchr whitespace c = true) :
    lex i (ws ++ cs) = lex (i + ws.length) cs := by
  induction ws generalizing i with
  | nil => rfl
  | cons c ws ih =>
    rw [List.cons_append, lex_space i (h c (by simp)), ih _ fun c hc => h c (by simp [hc]), List.length_cons]
    congr 1
    omega

theorem lex_append (i : Nat) :
    lex i (ascii '>' :: ascii '>' :: cs) = .op (.redir .append) :: lex (i + 2) cs := by
  rw [lex, if_neg (by decide), if_pos ⟨rfl, rfl⟩]

theorem lex_op {o : Op} (i : Nat) (hs : strchr whitespace c = false)
    (ho : opOf c = some o) (hg : c = ascii '>' → cs.head? ≠ some (ascii '>')) :
    lex i (c :: cs) = .op o :: lex (i + 1) cs := by
  cases cs with
  | nil => simp only [lex, hs, Bool.false_eq_true, if_false, ho]
  | cons d cs =>
    rw [lex, if_neg (by simp [hs]), if_neg fun h => hg h.1 (by rw [h.2]; rfl), ho]

/-- The bytes of words. -/
theorem of_isWord : ∀ c : Byte, isWord c = true → strchr whitespace c = false ∧ opOf c = none ∧ c ≠ ascii '>' ∧
    strchr ['|', '(', ')', ';', '&', '<'] c = false ∧ strchr symbols c = false := by
  decide +kernel

/-- A word is as long as possible. -/
theorem lex_word (i : Nat) (h0 : w ≠ []) (hw : ∀ c ∈ w, isWord c = true)
    (hcs : ∀ c ∈ cs.head?, isWord c = false) :
    lex i (w ++ cs) = .word ⟨i, i + w.length⟩ :: lex (i + w.length) cs := by
  induction w generalizing i with
  | nil => exact absurd rfl h0
  | cons c w ih =>
    obtain ⟨hs, ho, hg, -⟩ := of_isWord c (hw c (by simp))
    cases w with
    | nil =>
      cases cs with
      | nil => simp only [List.append_nil, lex, hs, Bool.false_eq_true, if_false, ho, List.length_singleton]
      | cons d cs =>
        rw [List.singleton_append, lex, if_neg (by simp [hs]), if_neg fun h => hg h.1, ho]
        dsimp only
        rw [if_neg (by simp [hcs d rfl])]
        rfl
    | cons d w =>
      have hd := hw d (by simp)
      have := ih (i + 1) (by simp) fun c hc => hw c (by simp [hc])
      rw [List.cons_append] at this
      rw [List.cons_append, List.cons_append, lex, if_neg (by simp [hs]), if_neg fun h => hg h.1, ho]
      dsimp only
      have hlen : i + 1 + (d :: w).length = i + (c :: d :: w).length := by
        simp only [List.length_cons]
        omega
      rw [if_pos hd, this, extend, hlen]

/-- The first byte of an operator. -/
def Op.first : Op → Byte
  | .bar => ascii '|'
  | .lparen => ascii '('
  | .rparen => ascii ')'
  | .semi => ascii ';'
  | .amp => ascii '&'
  | .redir .input => ascii '<'
  | .redir .output | .redir .append => ascii '>'

/-- What `gettoken` returns for an operator. -/
def Op.ret : Op → Byte
  | .redir .append => ascii '+'
  | o => o.first

/-- The bytes that begin a token. -/
theorem byte_cases : ∀ c : Byte, c ≠ 0 → strchr whitespace c = false →
    (opOf c = none ∧ isWord c = true) ∨
    (c = ascii '>' ∧ opOf c = some (.redir .output)) ∨
    (strchr ['|', '(', ')', ';', '&', '<'] c = true ∧ c ≠ ascii '>' ∧ (opOf c).isSome) := by
  decide +kernel

theorem opOf_first : ∀ c : Byte, ∀ o ∈ opOf c, o.first = c ∧ o.ret = c := by decide +kernel

/-- What stands at a position where a token or the end is. -/
inductive Front (line : List Byte) (s : Nat) : List Tok → Prop
  | nil (h : line.drop s = []) : Front line s []
  | append {cs : List Byte} (h : line.drop s = ascii '>' :: ascii '>' :: cs) :
      Front line s (.op (.redir .append) :: lex (s + 2) cs)
  | op {c : Byte} {cs : List Byte} {o : Op} (h : line.drop s = c :: cs) (h0 : c ≠ 0)
      (hs : strchr whitespace c = false) (ho : opOf c = some o) (hg : c = ascii '>' → cs.head? ≠ some (ascii '>')) :
      Front line s (.op o :: lex (s + 1) cs)
  | word {w cs : List Byte} (h : line.drop s = w ++ cs) (h0 : w ≠ []) (hw : ∀ c ∈ w, isWord c = true)
      (hcs : ∀ c ∈ cs.head?, isWord c = false) :
      Front line s (.word ⟨s, s + w.length⟩ :: lex (s + w.length) cs)

theorem head_dropWhile : ∀ c ∈ (cs.dropWhile p).head?, p c = false := by
  intro c hc
  have := List.head?_dropWhile_not p cs
  rw [Option.mem_def.mp hc] at this
  simpa using this

theorem drop_skipSpace : line.drop (skipSpace line s) = (line.drop s).dropWhile (strchr whitespace) :=
  drop_scan (Nat.le_refl _)

theorem At.skip (h : At line s ts) : At line (skipSpace line s) ts := by
  have hspaces : lex s ((line.drop s).takeWhile (strchr whitespace) ++ (line.drop s).dropWhile (strchr whitespace)) =
      _ := lex_spaces s fun c hc => List.mem_takeWhile_imp hc
  rw [List.takeWhile_append_dropWhile, h.toks] at hspaces
  refine ⟨?_, ?_⟩
  · have hle := (List.takeWhile_prefix (strchr whitespace) (l := line.drop s)).length_le
    have hs := h.le
    rw [List.length_drop] at hle
    rw [skipSpace, scan_eq (Nat.le_refl _)]
    omega
  · rw [drop_skipSpace, skipSpace, scan_eq (Nat.le_refl _)]
    exact hspaces.symm

/-- After `skipSpace` there is a token or the end. -/
theorem At.front (h : At line s ts) (h0 : (0 : Byte) ∉ line) :
    Front line (skipSpace line s) ts := by
  have hts := h.skip.toks
  have hhead : ∀ c ∈ (line.drop (skipSpace line s)).head?, strchr whitespace c = false := by
    rw [drop_skipSpace]
    exact head_dropWhile
  generalize skipSpace line s = s' at hts hhead
  subst hts
  cases hcs : line.drop s' with
  | nil => exact .nil hcs
  | cons c cs =>
    have hmem : c ∈ line := List.mem_of_mem_drop (by rw [hcs]; simp)
    have hc0 : c ≠ 0 := fun hc => h0 (hc ▸ hmem)
    have hs : strchr whitespace c = false := hhead c (by rw [hcs]; rfl)
    have hop : ∀ {o}, opOf c = some o → (c = ascii '>' → cs.head? ≠ some (ascii '>')) →
        Front line s' (lex s' (c :: cs)) := fun ho hg => by
      rw [lex_op s' hs ho hg]
      exact .op hcs hc0 hs ho hg
    rcases byte_cases c hc0 hs with ⟨-, hw⟩ | ⟨rfl, ho⟩ | ⟨-, hne, ho⟩
    · -- the word goes on as long as it can
      have hsplit := List.takeWhile_append_dropWhile (p := isWord) (l := c :: cs)
      have hne : (c :: cs).takeWhile isWord ≠ [] := by
        rw [List.takeWhile_cons, if_pos hw]
        exact List.cons_ne_nil _ _
      have hall : ∀ d ∈ (c :: cs).takeWhile isWord, isWord d = true := fun d hd => List.mem_takeWhile_imp hd
      rw [← hsplit, lex_word s' hne hall head_dropWhile]
      exact .word (by rw [hsplit, hcs]) hne hall head_dropWhile
    · by_cases hg : cs.head? = some (ascii '>')
      · obtain ⟨cs', rfl⟩ : ∃ cs', cs = ascii '>' :: cs' := List.head?_eq_some_iff.mp hg
        rw [lex_append]
        exact .append hcs
      · exact hop ho fun _ => hg
    · obtain ⟨o, ho⟩ := Option.isSome_iff_exists.mp ho
      exact hop ho fun hc => absurd hc hne

theorem strchr_mono {xs ys : List Char} (h : ∀ x ∈ xs, x ∈ ys) (hc : strchr xs c = true) :
    strchr ys c = true := by
  simp only [strchr, List.contains_iff_mem, List.mem_map] at hc ⊢
  obtain ⟨x, hx, he⟩ := hc
  exact ⟨x, h x hx, he⟩

/-- The next token is an operator that begins with one of the bytes. -/
def sees (toks : List Char) : List Tok → Bool
  | .op o :: _ => strchr toks o.first
  | _ => false

theorem sees_eq_true {toks : List Char} (h : sees toks ts = true) :
    ∃ o us, ts = .op o :: us ∧ strchr toks o.first = true := by
  match ts, h with
  | .op o :: us, h => exact ⟨o, us, rfl, h⟩

/-- `peek` for symbols. -/
theorem At.peek (h : At line s ts) (h0 : (0 : Byte) ∉ line) (toks : List Char)
    (ht : toks.all symbols.contains = true) : ∃ s', Sh.peek line s toks = (sees toks ts, s') ∧ At line s' ts := by
  refine ⟨skipSpace line s, Prod.ext ?_ rfl, h.skip⟩
  unfold Sh.peek
  dsimp only
  rw [ch_eq]
  cases h.front h0 with
  | nil hd => rw [hd]; rfl
  | append hd =>
    rw [hd]
    rfl
  | op hd hc _ ho hg =>
    have hfirst := (opOf_first _ _ ho).1
    rw [hd, List.headD_cons, sees, hfirst, decide_eq_true hc, Bool.true_and]
  | word hd hne hw hcs =>
    rename_i w cs
    obtain ⟨c, w, rfl⟩ := List.exists_cons_of_ne_nil hne
    have hsym : strchr symbols c = false := (of_isWord c (hw c (by simp))).2.2.2.2
    have hno : strchr toks c = false := Bool.eq_false_iff.mpr fun hc => by
      rw [strchr_mono (fun x hx => List.contains_iff_mem.mp (List.all_eq_true.mp ht x hx)) hc] at hsym
      cases hsym
    rw [hd, List.cons_append, List.headD_cons, hno, Bool.and_false]
    rfl

/-- `gettoken` has read the next token. -/
def Gives (line : List Byte) (t : Token) : List Tok → Prop
  | [] => t.ret = 0 ∧ At line t.ps []
  | .op o :: ts => t.ret = o.ret ∧ At line t.ps ts
  | .word w :: ts => t.ret = ascii 'a' ∧ t.word = w ∧ At line t.ps ts

theorem at_drop (h : line.drop s = w ++ cs) (hn : w.length = n)
    (hpos : 0 < n) : At line (s + n) (lex (s + n) cs) := by
  have hlen : line.length - s = w.length + cs.length := by rw [← List.length_drop, h, List.length_append]
  exact ⟨by omega, by rw [← List.drop_drop, h, List.drop_left' hn]⟩

theorem readToken_op {o : Op} (h : line.drop s = c :: cs) (hc : c ≠ 0)
    (hs : strchr whitespace c = false) (ho : opOf c = some o)
    (hg : c = ascii '>' → cs.head? ≠ some (ascii '>')) : readToken line s = (o.ret, s + 1) := by
  have hret := (opOf_first c o ho).2
  have hch : ch line s = c := by rw [ch_eq, h]; rfl
  have hnext : ch line (s + 1) = cs.headD 0 := by rw [ch_eq, ← List.drop_drop, h]; rfl
  unfold readToken
  rw [hch, hnext, if_neg hc, hret]
  rcases byte_cases c hc hs with ⟨hnone, -⟩ | ⟨rfl, -⟩ | ⟨hsym, -⟩
  · rw [hnone] at ho
    cases ho
  · have hne : cs.headD 0 ≠ ascii '>' := fun he => hg rfl (by
      cases cs with
      | nil => exact absurd he (by decide)
      | cons d cs => exact congrArg some he)
    rw [if_neg (by decide), if_pos rfl, if_neg hne]
  · rw [if_pos hsym]

theorem readToken_word (h : line.drop s = w ++ cs) (h0 : (0 : Byte) ∉ w) (hne : w ≠ [])
    (hw : ∀ c ∈ w, isWord c = true) (hcs : ∀ c ∈ cs.head?, isWord c = false) :
    readToken line s = (ascii 'a', s + w.length) := by
  obtain ⟨c, w', rfl⟩ := List.exists_cons_of_ne_nil hne
  have hch : ch line s = c := by rw [ch_eq, h]; rfl
  have hc : c ≠ 0 := fun hc => h0 (by simp [hc])
  obtain ⟨-, -, hg, hsym, -⟩ := of_isWord c (hw c (by simp))
  have htake : ((c :: w') ++ cs).takeWhile isWord = c :: w' := by
    rw [List.takeWhile_append_of_pos hw]
    cases cs with
    | nil => rw [List.takeWhile_nil, List.append_nil]
    | cons d cs => rw [List.takeWhile_cons, if_neg (by simp [hcs d rfl]), List.append_nil]
  have hscan : scan line (fun c => !strchr whitespace c && !strchr symbols c) (line.length - s) s =
      s + (c :: w').length := by
    rw [scan_eq (Nat.le_refl _), h]
    exact congrArg (s + List.length ·) htake
  unfold readToken
  rw [hch, if_neg hc, hscan, if_neg (by simp [hsym]), if_neg hg]

/-- `gettoken` gives the next token. -/
theorem At.gettoken (h : At line s ts) (h0 : (0 : Byte) ∉ line) :
    Gives line (Sh.gettoken line s) ts := by
  have hfront := h.front h0
  have hle := h.skip.le
  unfold Sh.gettoken
  dsimp only
  generalize skipSpace line s = s' at hfront hle
  cases hfront with
  | nil hd =>
    have hread : readToken line s' = (0, s') := by
      unfold readToken
      rw [ch_eq, hd]
      rfl
    rw [hread]
    exact ⟨rfl, At.skip ⟨hle, by rw [hd]; rfl⟩⟩
  | append hd =>
    have hread : readToken line s' = (ascii '+', s' + 2) := by
      have hch : ch line (s' + 1) = ascii '>' := by rw [ch_eq, ← List.drop_drop, hd]; rfl
      unfold readToken
      rw [hch, ch_eq, hd]
      rfl
    rw [hread]
    exact ⟨rfl, (at_drop (w := [ascii '>', ascii '>']) hd rfl (by decide)).skip⟩
  | @op c cs o hd hc hs ho hg =>
    rw [readToken_op hd hc hs ho hg]
    exact ⟨rfl, (at_drop (w := [c]) hd rfl Nat.one_pos).skip⟩
  | word hd hne hw hcs =>
    rw [readToken_word hd (fun h => h0 (List.mem_of_mem_drop (by rw [hd]; exact List.mem_append_left _ h))) hne hw
      hcs]
    exact ⟨rfl, rfl, (at_drop hd rfl (List.length_pos_iff.mpr hne)).skip⟩

/-! ## Words -/

def Tok.word? : Tok → Option Span
  | .word w => some w
  | .op _ => none

/-- The words among the tokens. -/
def words (ts : List Tok) : List Span := ts.filterMap Tok.word?

/-- The bytes from `q` to `eq` are a word of the line. -/
structure IsWordAt (line : List Byte) (w : Span) : Prop where
  lt : w.q < w.eq
  le : w.eq ≤ line.length
  bytes : ∀ j, w.q ≤ j → j < w.eq → isWord (ch line j) = true
  stop : w.eq = line.length ∨ isWord (ch line w.eq) = false

theorem isWordAt_of_front (h : line.drop s = w ++ cs) (hne : w ≠ [])
    (hw : ∀ c ∈ w, isWord c = true) (hcs : ∀ c ∈ cs.head?, isWord c = false) :
    IsWordAt line ⟨s, s + w.length⟩ := by
  have hlen : line.length - s = w.length + cs.length := by
    rw [← List.length_drop, h, List.length_append]
  have hpos := List.length_pos_iff.mpr hne
  refine ⟨by simp only; omega, by simp only; omega, fun j h1 h2 => hw _ ?_, ?_⟩
  · simp only at h1 h2
    have hj : line.getD j 0 = w.getD (j - s) 0 := by
      have : (line.drop s).getD (j - s) 0 = line.getD j 0 := by
        rw [List.getD_eq_getElem?_getD, List.getElem?_drop, Nat.add_sub_cancel' h1, List.getD_eq_getElem?_getD]
      rw [← this, h, List.getD_append _ _ _ _ (by omega)]
    rw [ch, hj, List.getD_eq_getElem _ _ (by omega)]
    exact List.getElem_mem _
  · cases cs with
    | nil =>
      left
      simp only [List.length_nil] at hlen ⊢
      omega
    | cons c cs =>
      right
      have hch : ch line (s + w.length) = c := by
        rw [ch_eq, ← List.drop_drop, h, List.drop_left]
        rfl
      rw [hch]
      exact hcs c rfl

/-- The words of the line, in order. -/
theorem words_lex (h0 : (0 : Byte) ∉ line) (hs : s ≤ line.length) (hn : line.length - s < n) :
    (∀ w ∈ words (lex s (line.drop s)), s ≤ w.q ∧ IsWordAt line w) ∧
      (words (lex s (line.drop s))).Pairwise fun a b => a.eq ≤ b.q := by
  induction n generalizing s with
  | zero => omega
  | succ n ih =>
    have hle : s ≤ skipSpace line s := by
      rw [skipSpace, scan_eq (Nat.le_refl _)]
      exact Nat.le_add_right _ _
    have hfront := (At.mk hs rfl).front h0
    generalize lex s (line.drop s) = ts at hfront
    generalize skipSpace line s = s' at hle hfront
    -- after the first token there are less bytes to go
    have hrest : ∀ {w cs : List Byte} {k : Nat}, line.drop s' = w ++ cs → w.length = k → 0 < k →
        (∀ v ∈ words (lex (s' + k) cs), s' + k ≤ v.q ∧ IsWordAt line v) ∧
          (words (lex (s' + k) cs)).Pairwise fun a b => a.eq ≤ b.q := fun {w cs k} hd hk hpos => by
      have hlen : line.length - s' = w.length + cs.length := by rw [← List.length_drop, hd, List.length_append]
      have := ih (s := s' + k) (by omega) (by omega)
      rwa [← List.drop_drop, hd, List.drop_left' hk] at this
    have hle' : ∀ {ts : List Tok} {k : Nat}, (∀ v ∈ words ts, s' + k ≤ v.q ∧ IsWordAt line v) →
        ∀ v ∈ words ts, s ≤ v.q ∧ IsWordAt line v := fun h v hv => by
      have := h v hv
      exact ⟨by omega, this.2⟩
    cases hfront with
    | nil => exact ⟨nofun, .nil⟩
    | append hd =>
      have := hrest (w := [ascii '>', ascii '>']) hd rfl (by decide)
      exact ⟨hle' this.1, this.2⟩
    | @op c cs o hd =>
      have := hrest (w := [c]) hd rfl Nat.one_pos
      exact ⟨hle' this.1, this.2⟩
    | @word w cs hd hne hw hcs =>
      have := hrest hd rfl (List.length_pos_iff.mpr hne)
      have hcons : words (.word ⟨s', s' + w.length⟩ :: lex (s' + w.length) cs) =
          ⟨s', s' + w.length⟩ :: words (lex (s' + w.length) cs) := rfl
      rw [hcons]
      refine ⟨fun v hv => ?_, List.pairwise_cons.mpr ⟨fun v hv => (this.1 v hv).1, this.2⟩⟩
      rcases List.mem_cons.mp hv with rfl | hv
      · exact ⟨hle, isWordAt_of_front hd hne hw hcs⟩
      · exact hle' this.1 v hv

end

end MiniOS.Sh
