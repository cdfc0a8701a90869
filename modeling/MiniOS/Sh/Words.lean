import MiniOS.Sh.Yield

/-!
# MiniOS.Sh.Words

The strings that a command is run with.  After `nulterminate` the string at each
word of the tree is the word's text, and `runcmd` copies the first word of a
command behind a slash into `path`, which has room for all words of the shell's
buffer but those that fill it.
-/

namespace MiniOS.Sh

/-- The bytes of the line from `q` to `eq`. -/
def Span.text (line : List Byte) (w : Span) : List Byte := (line.drop w.q).take (w.eq - w.q)

/-- The string at `p`, of less than `n` bytes. -/
def stringAt (buf : Nat → Byte) : Nat → Nat → List Byte
  | 0, _ => []
  | n + 1, p => if buf p = 0 then [] else buf p :: stringAt buf n (p + 1)

/-- The bytes that `strcpy(s, t)` stores, and where. -/
def strcpy (buf : Nat → Byte) : Nat → Nat → Nat → List (Nat × Byte)
  | 0, _, _ => []
  | n + 1, s, t => (s, buf t) :: if buf t = 0 then [] else strcpy buf n (s + 1) (t + 1)

section
variable {line : List Byte} {buf : Nat → Byte} {w : Span}

theorem IsString.tail (h : IsString line buf w) : IsString line buf ⟨w.q + 1, w.eq⟩ :=
  ⟨fun j hj hj' => h.bytes j (Nat.le_of_succ_le hj) hj', h.nul⟩

theorem IsString.stringAt (h : IsString line buf w) (hle : w.q ≤ w.eq) (hl : w.eq ≤ line.length) {n : Nat}
    (hn : w.eq - w.q < n) : Sh.stringAt buf n w.q = w.text line := by
  induction n generalizing w with
  | zero => omega
  | succ n ih =>
    by_cases hq : w.q = w.eq
    · simp [Sh.stringAt, Span.text, hq, h.nul]
    · have hlt : w.q < w.eq := by omega
      obtain ⟨hch, hne⟩ := h.bytes w.q (Nat.le_refl _) hlt
      have hlt' : w.q < line.length := by omega
      have hsub : w.eq - w.q = w.eq - (w.q + 1) + 1 := by omega
      rw [Sh.stringAt, if_neg hne, ih h.tail hlt hl (by simp only; omega)]
      rw [Span.text, Span.text, List.drop_eq_getElem_cons hlt', hsub, List.take_succ_cons, hch, ch,
        List.getD_eq_getElem _ _ hlt']

/-- The last byte stored is the terminator. -/
theorem IsString.strcpy (h : IsString line buf w) (hle : w.q ≤ w.eq) {n : Nat} (hn : w.eq - w.q < n) (s : Nat) :
    (s + (w.eq - w.q), 0) ∈ Sh.strcpy buf n s w.q ∧
      ∀ e ∈ Sh.strcpy buf n s w.q, e.1 ≤ s + (w.eq - w.q) := by
  induction n generalizing w s with
  | zero => omega
  | succ n ih =>
    by_cases hq : w.q = w.eq
    · simp [Sh.strcpy, hq, h.nul]
    · have hlt : w.q < w.eq := by omega
      have hne := (h.bytes w.q (Nat.le_refl _) hlt).2
      obtain ⟨hlast, hall⟩ := ih h.tail hlt (by simp only; omega) (s + 1)
      have hsub : s + (w.eq - w.q) = s + 1 + (w.eq - (w.q + 1)) := by omega
      rw [Sh.strcpy, if_neg hne, hsub]
      refine ⟨List.mem_cons_of_mem _ hlast, List.forall_mem_cons.mpr ⟨?_, hall⟩⟩
      omega

end

section
variable {line : List Byte} (h0 : (0 : Byte) ∉ line) {fuel : Nat} (hf : 4 * line.length + 4 ≤ fuel)
include h0 hf

/-- The words of the tree are words of the line and strings of the buffer. -/
theorem isString_of_parsecmd {c : Cmd} {buf : Nat → Byte} (h : parsecmd line fuel = .ok (c, buf)) {w : Span}
    (hw : w ∈ c.words) : .word w ∈ tokens line ∧ IsWordAt line w ∧ IsString line buf w := by
  have hsound := sound_parsecmd h0 hf
  rw [h] at hsound
  obtain ⟨hd, hbuf : buf = nulterminate c (ch line)⟩ := hsound
  subst hbuf
  have hyield := hd.yield (ordered_tokens h0)
  have hmem : .word w ∈ tokens line := by rwa [← mem_noParens, ← hyield, mem_yield]
  exact ⟨hmem, isWordAt_of_mem h0 hmem, isString_nulterminate h0 hyield hmem⟩

end

/-- Every word of the command, an argument or the file of a redirection, is a token of the line.
After `nulterminate` the string there is the text of the token: no word's terminator is in a word. -/
theorem words_intact (line : List Byte) (h0 : (0 : Byte) ∉ line) (fuel : Nat) (hf : 4 * line.length + 4 ≤ fuel)
    (c : Cmd) (buf : Nat → Byte) (h : parsecmd line fuel = .ok (c, buf)) :
    (∀ w ∈ c.words, .word w ∈ tokens line ∧ w.text line ≠ [] ∧ buf w.eq = 0 ∧
      ∀ n, w.eq - w.q < n → stringAt buf n w.q = w.text line) ∧
    ∀ v ∈ c.words, ∀ w ∈ c.words, ¬(w.q ≤ v.eq ∧ v.eq < w.eq) := by
  constructor
  · intro w hw
    obtain ⟨hmem, hword, hstr⟩ := isString_of_parsecmd h0 hf h hw
    have hlt := hword.lt
    have hle := hword.le
    refine ⟨hmem, ?_, hstr.nul, fun n hn => hstr.stringAt hlt.le hle hn⟩
    rw [Ne, ← List.length_eq_zero_iff, Span.text, List.length_take, List.length_drop]
    omega
  · intro v hv w hw hin
    have hnul := (isString_of_parsecmd h0 hf h hv).2.2.nul
    exact ((isString_of_parsecmd h0 hf h hw).2.2.bytes v.eq hin.1 hin.2).2 hnul

/-- The operators of `a >f b|(c)&` are next to its words. -/
theorem words_intact_pipe : ∃ buf, parsecmd pipeLine 48 = .ok (pipeCmd, buf) ∧
    stringAt buf 2 3 = [ascii 'f'] ∧ stringAt buf 2 8 = [ascii 'c'] := by
  have hd : Derives .line (tokens pipeLine) pipeCmd := by
    have hrun : (parsecmd pipeLine 48).toOption.map Prod.fst = some pipeCmd := by decide +kernel
    obtain ⟨⟨c, buf⟩, hsome, rfl⟩ := Option.map_eq_some_iff.mp hrun
    have hsound := @sound_parsecmd pipeLine (by decide) 48 (by decide)
    cases h : parsecmd pipeLine 48 with
    | ok r => rw [h] at hsome hsound; cases hsome; exact hsound.1
    | error e => rw [h] at hsome; cases hsome
  have hok := @complete_parsecmd pipeLine (by decide) 48 (by decide) _ hd
  have hwords := (words_intact pipeLine (by decide) 48 (by decide) pipeCmd _ hok).1
  exact ⟨_, hok, (hwords ⟨3, 4⟩ (by decide)).2.2.2 2 (by decide), (hwords ⟨8, 9⟩ (by decide)).2.2.2 2 (by decide)⟩

/-! ## The copy into `path` -/

/-- The bytes that `gets` stores, at most `n`, from what is read from the console up to its end. -/
def gets : Nat → List Byte → List Byte
  | 0, _ | _ + 1, [] => []
  | n + 1, c :: cs => c :: if c = ascii '\n' ∨ c = ascii '\r' then [] else gets n cs

/-- `sizeof(buf)` of `main` and `sizeof(path)` of `runcmd`. -/
abbrev bufSize : Nat := 100

/-- `getcmd`; the bytes after the stored ones are zero. -/
def getcmd (input : List Byte) : Option (List Byte) :=
  let stored := gets (bufSize - 1) input
  if ch stored 0 = 0 then none else some stored

/-- The line that `main` gives to `parsecmd`: nothing for a blank line, and `cd` is not parsed. -/
def mainLine (stored : List Byte) : Option (List Byte) :=
  let cmd := stored.dropWhile fun c => c == ascii ' ' || c == ascii '\t'
  if ch cmd 0 = ascii '\n' then none
  else if ch cmd 0 = ascii 'c' ∧ ch cmd 1 = ascii 'd' ∧ ch cmd 2 = ascii ' ' then none
  else some (cmd.takeWhile (· ≠ 0))

/-- The nodes of type `EXEC`. -/
def Cmd.execs : Cmd → List (List Span)
  | .exec argv => [argv]
  | .redir cmd _ _ _ | .back cmd => cmd.execs
  | .pipe left right | .list left right => left.execs ++ right.execs

/-- What `runcmd` stores in `path` if `exec` of the first word fails. -/
def pathWrites (line : List Byte) (buf : Nat → Byte) : List Span → List (Nat × Byte)
  | [] => []
  | w :: _ => if buf w.q = ascii '/' then [] else (0, ascii '/') :: strcpy buf (line.length + 1) 1 w.q

/-- The buffer is one word that does not begin with a slash. -/
def FillsBuffer (stored : List Byte) : Prop :=
  stored.length = bufSize - 1 ∧ (∀ c ∈ stored, isWord c = true ∧ c ≠ 0) ∧ ch stored 0 ≠ ascii '/'

instance (stored : List Byte) : Decidable (FillsBuffer stored) := inferInstanceAs (Decidable (_ ∧ _ ∧ _))

theorem length_gets (n : Nat) (input : List Byte) : (gets n input).length ≤ n := by
  fun_induction gets n input with
  | case1 => simp
  | case2 => simp
  | case3 n c cs ih =>
    rw [List.length_cons]
    split
    · simp
    · omega

theorem mem_words_of_mem_execs {c : Cmd} {argv : List Span} (h : argv ∈ c.execs) {w : Span} (hw : w ∈ argv) :
    w ∈ c.words := by
  induction c with
  | exec argv' =>
    rw [List.mem_singleton.mp h] at hw
    exact hw
  | redir cmd file mode fd ih => exact List.mem_cons_of_mem _ (ih h)
  | back cmd ih => exact ih h
  | pipe left right ih ih' | list left right ih ih' =>
    rcases List.mem_append.mp h with h | h
    · exact List.mem_append_left _ (ih h)
    · exact List.mem_append_right _ (ih' h)

section
variable {stored line : List Byte}

theorem not_mem_mainLine (h : mainLine stored = some line) : (0 : Byte) ∉ line := by
  unfold mainLine at h
  dsimp only at h
  split at h
  · cases h
  · split at h
    · cases h
    · cases h
      intro hmem
      simpa using List.mem_takeWhile_imp hmem

theorem mainLine_infix (h : mainLine stored = some line) : line <:+: stored := by
  unfold mainLine at h
  dsimp only at h
  split at h
  · cases h
  · split at h
    · cases h
    · cases h
      exact (List.takeWhile_prefix _).isInfix.trans (List.dropWhile_suffix _).isInfix

/-- A line of one word has nothing to skip, and is not `cd`. -/
theorem mainLine_word (hne : stored ≠ []) (hw : ∀ c ∈ stored, isWord c = true ∧ c ≠ 0) :
    mainLine stored = some stored := by
  obtain ⟨c, cs, rfl⟩ := List.exists_cons_of_ne_nil hne
  have hc := (hw c List.mem_cons_self).1
  have hspace : isWord (ascii ' ') = false := by decide
  have hblank : (c == ascii ' ' || c == ascii '\t') = false := by
    have hsp : c ≠ ascii ' ' := fun h => absurd (h ▸ hc) (by decide)
    have htab : c ≠ ascii '\t' := fun h => absurd (h ▸ hc) (by decide)
    simp [hsp, htab]
  have hnl : ch (c :: cs) 0 ≠ ascii '\n' := by
    rintro (rfl : c = _)
    exact absurd hc (by decide)
  have hcd : ch (c :: cs) 2 ≠ ascii ' ' := by
    intro h
    rw [ch] at h
    by_cases hlt : 2 < (c :: cs).length
    · rw [List.getD_eq_getElem _ _ hlt] at h
      have := (hw _ (List.getElem_mem hlt)).1
      rw [h, hspace] at this
      cases this
    · rw [List.getD_eq_default _ _ (Nat.le_of_not_lt hlt)] at h
      exact absurd h (by decide)
  unfold mainLine
  dsimp only
  rw [List.dropWhile_cons, hblank, if_neg Bool.false_ne_true, if_neg hnl, if_neg fun h => hcd h.2.2,
    List.takeWhile_eq_self_iff.mpr fun c hc => by simpa using (hw c hc).2]

/-- A line of one word is the command with this word. -/
theorem parsecmd_word (hne : line ≠ []) (hw : ∀ c ∈ line, isWord c = true ∧ c ≠ 0) {fuel : Nat}
    (hf : 4 * line.length + 4 ≤ fuel) :
    ∃ buf, parsecmd line fuel = .ok (.exec [⟨0, line.length⟩], buf) := by
  have h0 : (0 : Byte) ∉ line := fun h => (hw 0 h).2 rfl
  have htoks : tokens line = [.word ⟨0, line.length⟩] := by
    have := @lex_word [] line 0 hne (fun c hc => (hw c hc).1) nofun
    rwa [List.append_nil, Nat.zero_add, lex] at this
  have hd : Derives .line (tokens line) (.exec [⟨0, line.length⟩]) := by
    rw [htoks]
    exact .line 0 (.pipe (.simple [] [(⟨0, line.length⟩, [])] (show 1 < 10 by decide)))
  exact ⟨_, complete_parsecmd h0 hf hd⟩

/-- The copy of a word is as long as the word, after the slash. -/
theorem pathWrites_le {buf : Nat → Byte} {w : Span} {ws : List Span} (hw : IsWordAt line w)
    (hs : IsString line buf w) (h : buf w.q ≠ ascii '/') :
    (1 + (w.eq - w.q), 0) ∈ pathWrites line buf (w :: ws) ∧
      ∀ e ∈ pathWrites line buf (w :: ws), e.1 ≤ 1 + (w.eq - w.q) := by
  have hle := hw.le
  obtain ⟨hlast, hall⟩ := hs.strcpy hw.lt.le (n := line.length + 1) (by omega) 1
  rw [pathWrites, if_neg h]
  exact ⟨List.mem_cons_of_mem _ hlast, List.forall_mem_cons.mpr ⟨Nat.zero_le _, hall⟩⟩

/-- A word as long as the buffer is all of it. -/
theorem fillsBuffer_of_word {w : Span} (h0 : (0 : Byte) ∉ line) (hin : line <:+: stored)
    (hlen : stored.length ≤ 99) (hw : IsWordAt line w) (hlong : 99 ≤ w.eq - w.q)
    (hslash : ch line w.q ≠ ascii '/') : FillsBuffer stored := by
  have hle := hw.le
  have hll := hin.length_le
  obtain rfl : line = stored := hin.eq_of_length (by omega)
  have hq : w.q = 0 := by omega
  have heq : w.eq = line.length := by omega
  refine ⟨(by omega : line.length = 99), fun c hc => ⟨?_, fun hz => h0 (hz ▸ hc)⟩, hq ▸ hslash⟩
  obtain ⟨j, hj, rfl⟩ := List.getElem_of_mem hc
  rw [← List.getD_eq_getElem _ 0 hj]
  exact hw.bytes j (by omega) (by omega)

end

/-- For what `getcmd` can store, every copy of a first word into `path` is in bounds unless the
buffer is filled by one word that does not begin with a slash. -/
theorem pathWrites_in_bounds_iff (input stored : List Byte) (hget : getcmd input = some stored) (fuel : Nat)
    (hf : 4 * bufSize ≤ fuel) :
    (∀ line, mainLine stored = some line → ∀ c buf, parsecmd line fuel = .ok (c, buf) →
      ∀ argv ∈ c.execs, ∀ e ∈ pathWrites line buf argv, e.1 < bufSize) ↔ ¬FillsBuffer stored := by
  have hf' : 400 ≤ fuel := hf
  have hlen : stored.length ≤ 99 := by
    unfold getcmd at hget
    dsimp only at hget
    split at hget
    · cases hget
    · cases hget
      exact length_gets _ _
  constructor
  · rintro hall ⟨hfull, hword, hslash⟩
    replace hfull : stored.length = 99 := hfull
    have hne : stored ≠ [] := fun h => by simp [h] at hfull
    have h0 : (0 : Byte) ∉ stored := fun h => (hword 0 h).2 rfl
    obtain ⟨buf, hparse⟩ := @parsecmd_word stored hne hword fuel (by omega)
    obtain ⟨-, hw, hs⟩ := isString_of_parsecmd h0 (by omega) hparse List.mem_cons_self
    have hfirst : buf 0 ≠ ascii '/' := (hs.bytes 0 (Nat.le_refl _) hw.lt).1 ▸ hslash
    have hlast := hall stored (mainLine_word hne hword) _ buf hparse _ List.mem_cons_self _
      (pathWrites_le hw hs hfirst).1
    rw [hfull] at hlast
    exact absurd hlast (by decide)
  · intro hfree line hline c buf hparse argv hargv e he
    have h0 := not_mem_mainLine hline
    have hin := mainLine_infix hline
    have hll := hin.length_le
    cases argv with
    | nil => cases he
    | cons w ws =>
      obtain ⟨-, hw, hs⟩ :=
        isString_of_parsecmd h0 (by omega) hparse (mem_words_of_mem_execs hargv List.mem_cons_self)
      by_cases hfirst : buf w.q = ascii '/'
      · rw [pathWrites, if_pos hfirst] at he
        cases he
      · have hbound := (pathWrites_le hw hs hfirst).2 e he
        by_contra hout
        replace hout : 100 ≤ e.1 := Nat.le_of_not_lt hout
        refine hfree (fillsBuffer_of_word h0 hin hlen hw (by omega) ?_)
        rwa [(hs.bytes w.q (Nat.le_refl _) hw.lt).1] at hfirst

theorem pathWrites_in_bounds_ls : ¬FillsBuffer (['l', 's', '\n'].map ascii) ∧
    ∀ line, mainLine (['l', 's', '\n'].map ascii) = some line → ∀ c buf, parsecmd line 400 = .ok (c, buf) →
      ∀ argv ∈ c.execs, ∀ e ∈ pathWrites line buf argv, e.1 < bufSize :=
  ⟨by decide, (pathWrites_in_bounds_iff (['l', 's', '\n'].map ascii) _ (by decide) 400 (by decide)).mpr (by decide)⟩

/-- The terminator of a word of 99 bytes is stored after the end of `path`. -/
theorem pathWrites_fills_buffer : ∃ input stored line c buf, getcmd input = some stored ∧
    mainLine stored = some line ∧ parsecmd line 400 = .ok (c, buf) ∧
      ∃ argv ∈ c.execs, (bufSize, 0) ∈ pathWrites line buf argv := by
  have hword : ∀ c ∈ List.replicate 99 (ascii 'a'), isWord c = true ∧ c ≠ 0 := by
    intro c hc
    rw [List.eq_of_mem_replicate hc]
    decide
  have hne : List.replicate 99 (ascii 'a') ≠ [] := nofun
  have h0 : (0 : Byte) ∉ List.replicate 99 (ascii 'a') := fun h => (hword 0 h).2 rfl
  obtain ⟨buf, hparse⟩ := @parsecmd_word _ hne hword 400 (by simp)
  obtain ⟨-, hw, hs⟩ := isString_of_parsecmd h0 (by simp) hparse List.mem_cons_self
  have hfirst : buf 0 ≠ ascii '/' := by
    rw [(hs.bytes 0 (Nat.le_refl _) hw.lt).1]
    decide
  exact ⟨_, _, _, _, buf, (by decide +kernel : getcmd (.replicate 99 (ascii 'a')) = some _),
    mainLine_word hne hword, hparse, _, List.mem_cons_self, (pathWrites_le hw hs hfirst).1⟩

end MiniOS.Sh
