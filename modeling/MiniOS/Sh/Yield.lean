import MiniOS.Sh.Parse

/-!
# MiniOS.Sh.Yield

The tokens of a line, read off from the command: each redirection stands where
its file is among the words, and parentheses leave no node.  `parsecmd` accepts
the lines that the grammar derives, returns the command of the derivation, and
leaves each word as a string in the line.
-/

namespace MiniOS.Sh

/-! ## Reading off a command -/

/-- The redirection that opens its file with `mode`. -/
def redirOp (mode : Nat) : RedirOp :=
  if mode = RedirOp.input.mode then .input
  else if mode = RedirOp.output.mode then .output
  else .append

theorem redirOp_mode (op : RedirOp) : redirOp op.mode = op := by
  cases op <;> rfl

/-- A redirection in front of the first word after its file. -/
def insertRedir (r : Redir) : List Tok → List Tok
  | [] => r.toks
  | .op o :: ts => .op o :: insertRedir r ts
  | .word w :: ts => if r.file.q < w.q then r.toks ++ .word w :: ts else .word w :: insertRedir r ts

/-- The words and operators of a command, in the order of the line. -/
def Cmd.yield : Cmd → List Tok
  | .exec argv => argv.map .word
  | .redir cmd file mode _ => insertRedir ⟨redirOp mode, file⟩ cmd.yield
  | .pipe left right => left.yield ++ .op .bar :: right.yield
  | .list left right => left.yield ++ .op .semi :: right.yield
  | .back cmd => cmd.yield ++ [.op .amp]

/-- The tokens but for parentheses. -/
def noParens (ts : List Tok) : List Tok := ts.filter fun t => t ≠ .op .lparen ∧ t ≠ .op .rparen

/-- The words begin one after another. -/
def Ordered (ts : List Tok) : Prop := (words ts).Pairwise fun v w => v.q < w.q

theorem words_append (ts us : List Tok) : words (ts ++ us) = words ts ++ words us := List.filterMap_append

variable {ts : List Tok} {w : Span}

theorem Ordered.left {us : List Tok} (h : Ordered (ts ++ us)) : Ordered ts := by
  rw [Ordered, words_append] at h
  exact (List.pairwise_append.mp h).1

theorem Ordered.right {us : List Tok} (h : Ordered (ts ++ us)) : Ordered us := by
  rw [Ordered, words_append] at h
  exact (List.pairwise_append.mp h).2.1

theorem Ordered.tail {t : Tok} (h : Ordered (t :: ts)) : Ordered ts := @Ordered.right [t] ts h

theorem Ordered.before {us : List Tok} (h : Ordered (ts ++ us)) {v : Span} (hv : v ∈ words ts)
    (hw : w ∈ words us) : v.q < w.q := by
  rw [Ordered, words_append] at h
  exact (List.pairwise_append.mp h).2.2 v hv w hw

theorem mem_words : w ∈ words ts ↔ .word w ∈ ts := by
  rw [words, List.mem_filterMap]
  constructor
  · rintro ⟨t, ht, he⟩
    cases t with
    | op o => cases he
    | word v => cases he; exact ht
  · exact fun h => ⟨_, h, rfl⟩

theorem mem_noParens : .word w ∈ noParens ts ↔ .word w ∈ ts := by
  simp [noParens]

theorem noParens_append (ts us : List Tok) : noParens (ts ++ us) = noParens ts ++ noParens us :=
  List.filter_append ..

theorem words_noParens (ts : List Tok) : words (noParens ts) = words ts := by
  rw [words, noParens, List.filterMap_filter]
  refine congrArg (List.filterMap · ts) (funext fun t => ?_)
  rcases t with (_ | _ | _ | _ | _ | _) | w <;> rfl

theorem noParens_redirToks (rs : List Redir) : noParens (redirToks rs) = redirToks rs := by
  refine List.filter_eq_self.mpr fun t ht => ?_
  obtain ⟨r, _, hr⟩ := List.mem_flatMap.mp ht
  simp only [Redir.toks, List.mem_cons, List.not_mem_nil, or_false] at hr
  rcases hr with rfl | rfl <;> simp

theorem noParens_argToks (args : List (Span × List Redir)) : noParens (argToks args) = argToks args := by
  induction args with
  | nil => rfl
  | cons a args ih =>
    rw [argToks, List.flatMap_cons, ← argToks, noParens_append, ih]
    congr 1
    exact congrArg (.word a.1 :: ·) (noParens_redirToks a.2)

/-- A redirection goes after all words before its file. -/
theorem insertRedir_eq {r : Redir} {ws : List Span} (hts : ∀ w ∈ words ts, w.q < r.file.q)
    (hws : ∀ w ∈ ws, r.file.q < w.q) :
    insertRedir r (ts ++ ws.map .word) = ts ++ r.toks ++ ws.map .word := by
  induction ts with
  | nil =>
    cases ws with
    | nil => simp [insertRedir]
    | cons w ws =>
      have := hws w List.mem_cons_self
      simp only [List.nil_append, List.map_cons, insertRedir, if_pos this]
  | cons t ts ih =>
    cases t with
    | op o =>
      simp only [List.cons_append, insertRedir]
      rw [ih hts]
    | word v =>
      have hv : v.q < r.file.q := hts v List.mem_cons_self
      simp only [List.cons_append, insertRedir]
      rw [if_neg (by omega), ih fun w hw => hts w (List.mem_cons_of_mem _ hw)]

theorem yield_redircmds (c : Cmd) (rs : List Redir) :
    (redircmds c rs).yield = rs.foldl (fun ts r => insertRedir r ts) c.yield := by
  induction rs generalizing c with
  | nil => rfl
  | cons r rs ih =>
    rw [redircmds, List.foldl_cons, ← redircmds, ih, Cmd.yield, redirOp_mode]
    rfl

/-- Redirections before words go in one after another. -/
theorem foldl_insertRedir {ws : List Span} {rs : List Redir} (h : Ordered (ts ++ redirToks rs))
    (hws : ∀ r ∈ rs, ∀ w ∈ ws, r.file.q < w.q) :
    rs.foldl (fun ts r => insertRedir r ts) (ts ++ ws.map .word) = ts ++ redirToks rs ++ ws.map .word := by
  induction rs generalizing ts with
  | nil => simp [redirToks]
  | cons r rs ih =>
    have hcons : redirToks (r :: rs) = r.toks ++ redirToks rs := rfl
    have hr : ∀ w ∈ words ts, w.q < r.file.q := fun w hw =>
      h.before hw (mem_words.mpr (by rw [hcons]; simp [Redir.toks]))
    rw [hcons, ← List.append_assoc] at h
    rw [List.foldl_cons, insertRedir_eq hr (hws r List.mem_cons_self),
      ih h fun r' hr' => hws r' (List.mem_cons_of_mem _ hr'), hcons]
    simp only [List.append_assoc]

/-- The words of a simple command with its redirections among them. -/
theorem foldl_insertRedir_args {rs : List Redir} {args : List (Span × List Redir)}
    (h : Ordered (ts ++ redirToks rs ++ argToks args)) :
    (rs ++ args.flatMap Prod.snd).foldl (fun ts r => insertRedir r ts) (ts ++ (args.map Prod.fst).map .word) =
      ts ++ redirToks rs ++ argToks args := by
  induction args generalizing ts rs with
  | nil =>
    have hfold := @foldl_insertRedir ts [] rs h.left fun _ _ _ hw => absurd hw List.not_mem_nil
    simpa [argToks] using hfold
  | cons a args ih =>
    have hws : ∀ r ∈ rs, ∀ w ∈ (a :: args).map Prod.fst, r.file.q < w.q := fun r hr w hw => by
      refine (h.before (mem_words.mpr ?_) (mem_words.mpr ?_))
      · exact List.mem_append_right _ (List.mem_flatMap.mpr ⟨r, hr, by simp [Redir.toks]⟩)
      · obtain ⟨b, hb, rfl⟩ := List.mem_map.mp hw
        exact List.mem_flatMap.mpr ⟨b, hb, List.mem_cons_self⟩
    have hcons : ts ++ redirToks rs ++ argToks (a :: args) =
        (ts ++ redirToks rs ++ [.word a.1]) ++ redirToks a.2 ++ argToks args := by
      simp [argToks]
    rw [List.foldl_append, foldl_insertRedir h.left hws, hcons, ← ih (hcons ▸ h)]
    simp

theorem yield_backs (n : Nat) (c : Cmd) : (backs n c).yield = c.yield ++ List.replicate n (.op .amp) := by
  induction n generalizing c with
  | zero => simp [backs]
  | succ n ih =>
    rw [backs, ih, Cmd.yield, List.append_assoc]
    rfl

/-- The command of a derivation has the derived tokens, but for parentheses. -/
theorem Derives.yield {N : Nonterm} {c : Cmd} (h : Derives N ts c) (ho : Ordered ts) :
    c.yield = noParens ts := by
  have hamps (n : Nat) : noParens (List.replicate n (.op .amp)) = List.replicate n (.op .amp) :=
    List.filter_eq_self.mpr fun t ht => by rw [List.eq_of_mem_replicate ht]; rfl
  induction h with
  | line n _ ih => rw [yield_backs, ih ho.left, noParens_append, hamps]
  | lineList n _ _ ih ih' =>
    rw [Cmd.yield, yield_backs, ih ho.left.left, ih' ho.right.tail, noParens_append,
      noParens_append, hamps]
    rfl
  | pipe _ ih => exact ih ho
  | pipeBar _ _ ih ih' =>
    rw [Cmd.yield, ih ho.left, ih' ho.right.tail, noParens_append]
    rfl
  | @block ts c _ rs ih =>
    have hin : Ordered (noParens ts ++ redirToks rs) := by
      rw [Ordered, words_append] at ho ⊢
      rw [words_noParens]
      exact ho
    have hfold := @foldl_insertRedir _ [] _ hin fun _ _ _ h => nomatch h
    rw [List.map_nil, List.append_nil, List.append_nil] at hfold
    rw [yield_redircmds, ih ho.left.tail, hfold]
    change _ = noParens ([.op .lparen] ++ ts ++ ([.op .rparen] ++ redirToks rs))
    rw [noParens_append, noParens_append, noParens_append, noParens_redirToks]
    rfl
  | simple rs args _ =>
    rw [yield_redircmds, noParens_append, noParens_redirToks]
    exact (@foldl_insertRedir_args [] rs args ho).trans (congrArg _ (noParens_argToks args).symm)

/-! ## Strings -/

/-- `w` is a word of the command. -/
def Cmd.words : Cmd → List Span
  | .exec argv => argv
  | .redir cmd file _ _ => file :: cmd.words
  | .pipe left right | .list left right => left.words ++ right.words
  | .back cmd => cmd.words

theorem mem_insertRedir {r : Redir} :
    .word w ∈ insertRedir r ts ↔ w = r.file ∨ .word w ∈ ts := by
  fun_induction insertRedir r ts with
  | case1 => simp [Redir.toks]
  | case2 o ts ih => simp [ih]
  | case3 v ts _ => simp [Redir.toks]
  | case4 v ts _ ih =>
    simp only [List.mem_cons, Tok.word.injEq, ih]
    exact or_left_comm

theorem mem_yield {c : Cmd} : .word w ∈ c.yield ↔ w ∈ c.words := by
  induction c with
  | exec argv => simp [Cmd.yield, Cmd.words]
  | redir cmd file mode fd ih => rw [Cmd.yield, mem_insertRedir, ih, Cmd.words, List.mem_cons]
  | pipe left right ih ih' => simp [Cmd.yield, Cmd.words, ih, ih']
  | list left right ih ih' => simp [Cmd.yield, Cmd.words, ih, ih']
  | back cmd ih => simp [Cmd.yield, Cmd.words, ih]

theorem foldl_update_eq (ws : List Span) (buf : Nat → Byte) (j : Nat) :
    ws.foldl (fun buf w => Function.update buf w.eq 0) buf j = if ∃ w ∈ ws, w.eq = j then 0 else buf j := by
  induction ws generalizing buf with
  | nil => simp
  | cons w ws ih =>
    rw [List.foldl_cons, ih]
    by_cases hw : w.eq = j
    · subst hw
      simp
    · rw [Function.update_of_ne (Ne.symm hw)]
      simp [hw]

/-- `nulterminate` writes after each word. -/
theorem nulterminate_eq (c : Cmd) (buf : Nat → Byte) (j : Nat) :
    nulterminate c buf j = if ∃ w ∈ c.words, w.eq = j then 0 else buf j := by
  induction c generalizing buf with
  | exec argv => exact foldl_update_eq argv buf j
  | redir cmd file mode fd ih =>
    rw [nulterminate, Cmd.words]
    by_cases hf : file.eq = j
    · subst hf
      simp
    · rw [Function.update_of_ne (Ne.symm hf), ih]
      simp [hf]
  | pipe left right ih ih' | list left right ih ih' =>
    rw [nulterminate, ih', ih, Cmd.words]
    simp only [List.mem_append, or_and_right, exists_or]
    by_cases hr : ∃ w ∈ right.words, w.eq = j
    · simp [hr]
    · simp [hr]
  | back cmd ih => exact ih buf

/-- `w` is a string of the buffer: the bytes of the line, and then zero. -/
structure IsString (line : List Byte) (buf : Nat → Byte) (w : Span) : Prop where
  bytes : ∀ j, w.q ≤ j → j < w.eq → buf j = ch line j ∧ buf j ≠ 0
  nul : buf w.eq = 0

section
variable {line : List Byte} (h0 : (0 : Byte) ∉ line)
include h0

theorem isWordAt_of_mem {w : Span} (h : .word w ∈ tokens line) : IsWordAt line w := by
  have := (words_lex (s := 0) h0 (Nat.zero_le _) (Nat.lt_succ_self _)).1 w (mem_words.mpr h)
  exact this.2

theorem ordered_tokens : Ordered (tokens line) := by
  obtain ⟨hword, hpair⟩ := words_lex (s := 0) h0 (Nat.zero_le _) (Nat.lt_succ_self _)
  refine hpair.imp_of_mem fun hv _ hle => ?_
  exact Nat.lt_of_lt_of_le (hword _ hv).2.lt hle

/-- The words of the line are strings after `nulterminate`. -/
theorem isString_nulterminate {c : Cmd} (hc : c.yield = noParens (tokens line)) {w : Span}
    (hw : .word w ∈ tokens line) : IsString line (nulterminate c (ch line)) w := by
  have hmem (v : Span) : v ∈ c.words ↔ .word v ∈ tokens line := by rw [← mem_yield, hc, mem_noParens]
  have hw' := isWordAt_of_mem h0 hw
  refine ⟨fun j hj hj' => ?_, ?_⟩
  · have hno : ¬∃ v ∈ c.words, v.eq = j := by
      rintro ⟨v, hv, rfl⟩
      -- the byte after a word is not in a word
      rcases (isWordAt_of_mem h0 ((hmem v).mp hv)).stop with h | h
      · have := hw'.le
        omega
      · rw [hw'.bytes _ hj hj'] at h
        cases h
    rw [nulterminate_eq, if_neg hno]
    refine ⟨rfl, fun hz => h0 ?_⟩
    have hlt : j < line.length := Nat.lt_of_lt_of_le hj' hw'.le
    rw [← hz, ch, List.getD_eq_getElem _ _ hlt]
    exact List.getElem_mem hlt
  · rw [nulterminate_eq, if_pos ⟨w, (hmem w).mpr hw, rfl⟩]

/-! ## `parsecmd` -/

/-- At the end of the tokens, `peek` skips to the end of the line. -/
theorem At.peek_end {s : Nat} {ts : List Tok} (h : At line s ts) :
    (Sh.peek line s []).2 = line.length ↔ ts = [] := by
  have hskip := h.skip
  change skipSpace line s = line.length ↔ ts = []
  constructor
  · intro hend
    have := hskip.toks
    rw [hend, List.drop_length] at this
    exact this.symm
  · rintro rfl
    cases h.front h0 with
    | nil hd =>
      have hle := hskip.le
      have hlen := congrArg List.length hd
      rw [List.length_drop, List.length_nil] at hlen
      omega

theorem sound_parsecmd {fuel : Nat} (hf : 4 * line.length + 4 ≤ fuel) :
    Run (fun r => Derives .line (tokens line) r.1 ∧ r.2 = nulterminate r.1 (ch line)) (parsecmd line fuel) := by
  have h : At line 0 (tokens line) := ⟨Nat.zero_le _, rfl⟩
  have hlen := h.length_lt
  rw [parsecmd]
  refine ((sound h0 fuel).parseline h (by omega)).bind ?_
  rintro ⟨c, s⟩ ⟨us, vs, htoks, hs, hd⟩
  dsimp only
  split
  · trivial
  · next hend =>
      obtain rfl := (hs.peek_end h0).mp (not_not.mp hend)
      rw [List.append_nil] at htoks
      rw [htoks]
      exact ⟨hd, rfl⟩

theorem complete_parsecmd {fuel : Nat} (hf : 4 * line.length + 4 ≤ fuel) {c : Cmd}
    (hd : Derives .line (tokens line) c) :
    parsecmd line fuel = .ok (c, nulterminate c (ch line)) := by
  have h : At line 0 (tokens line ++ []) := ⟨Nat.zero_le _, (List.append_nil _).symm⟩
  have hlen : (tokens line).length < line.length + 1 := by
    have := h.length_lt
    rwa [List.append_nil] at this
  obtain ⟨s, hparse, hs⟩ := complete h0 hd (n := fuel) h nofun (by simp only [Nonterm.calls]; omega)
  have hend := (hs.peek_end h0).mpr rfl
  change parseline line fuel 0 = _ at hparse
  rw [parsecmd, hparse]
  dsimp only [bind, Except.bind]
  rw [if_neg (not_not.mpr hend)]
  rfl

end

/-- With fuel for the tokens, `parsecmd` returns or panics.  It returns exactly the commands that the
grammar derives from the tokens; the command read off in order is the line without its
parentheses, and each word is left as a string. -/
theorem parsecmd_iff_derives (line : List Byte) (h0 : (0 : Byte) ∉ line) (fuel : Nat)
    (hf : 4 * line.length + 4 ≤ fuel) :
    parsecmd line fuel ≠ .error .fuel ∧
    (∀ c, (∃ buf, parsecmd line fuel = .ok (c, buf)) ↔ Derives .line (tokens line) c) ∧
    ∀ c buf, parsecmd line fuel = .ok (c, buf) → c.yield = noParens (tokens line) ∧
      ∀ w, .word w ∈ tokens line → IsString line buf w := by
  have hsound := sound_parsecmd h0 hf
  have hok : ∀ {c buf}, parsecmd line fuel = .ok (c, buf) →
      Derives .line (tokens line) c ∧ buf = nulterminate c (ch line) := fun h => by
    rw [h] at hsound
    exact hsound
  refine ⟨fun h => ?_, fun c => ⟨fun ⟨buf, h⟩ => (hok h).1, fun hd => ⟨_, complete_parsecmd h0 hf hd⟩⟩,
    fun c buf h => ?_⟩
  · rw [h] at hsound
    exact hsound
  · obtain ⟨hd, rfl⟩ := hok h
    have hyield := hd.yield (ordered_tokens h0)
    exact ⟨hyield, fun w hw => isString_nulterminate h0 hyield hw⟩

/-- `a >f b|(c)&`. -/
def pipeLine : List Byte := ['a', ' ', '>', 'f', ' ', 'b', '|', '(', 'c', ')', '&'].map ascii

/-- The redirection is around the whole simple command, and the parentheses are gone. -/
def pipeCmd : Cmd := .back (.pipe (.redir (.exec [⟨0, 1⟩, ⟨5, 6⟩]) ⟨3, 4⟩ 0x601 1) (.exec [⟨8, 9⟩]))

theorem parsecmd_iff_derives_pipe : Derives .line (tokens pipeLine) pipeCmd ∧
    pipeCmd.yield = noParens (tokens pipeLine) := by
  obtain ⟨-, hiff, hyield⟩ := parsecmd_iff_derives pipeLine (by decide) 48 (by decide)
  have hrun : (parsecmd pipeLine 48).toOption.map Prod.fst = some pipeCmd := by decide +kernel
  obtain ⟨⟨c, buf⟩, hsome, rfl⟩ := Option.map_eq_some_iff.mp hrun
  have hok : parsecmd pipeLine 48 = .ok (pipeCmd, buf) := by
    cases h : parsecmd pipeLine 48 with
    | ok r => rw [h] at hsome; cases hsome; rfl
    | error e => rw [h] at hsome; cases hsome
  exact ⟨(hiff _).mp ⟨buf, hok⟩, (hyield _ buf hok).1⟩

end MiniOS.Sh
