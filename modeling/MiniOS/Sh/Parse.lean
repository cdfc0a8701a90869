import MiniOS.Sh.Tokens

/-!
# MiniOS.Sh.Parse

`parsecmd` accepts exactly the lines of the grammar.  What the parser returns is
derived from the tokens that it has read (`sound_*`), and what is derived is
returned if the next token cannot go on with it (`complete_*`).
-/

namespace MiniOS.Sh

/-- A run of the parser returns with `P`, or panics; it does not run out of fuel. -/
def Run {α : Type} (P : α → Prop) : Except Stop α → Prop
  | .ok a => P a
  | .error (.panic _) => True
  | .error .fuel => False

theorem Run.mono {α : Type} {P Q : α → Prop} {x : Except Stop α} (h : Run P x) (hi : ∀ a, P a → Q a) : Run Q x := by
  match x, h with
  | .ok a, h => exact hi a h
  | .error (.panic _), _ => trivial

theorem Run.bind {α β : Type} {P : α → Prop} {Q : β → Prop} {x : Except Stop α} {f : α → Except Stop β}
    (h : Run P x) (hf : ∀ a, P a → Run Q (f a)) : Run Q (x >>= f) := by
  match x, h with
  | .ok a, h => exact hf a h
  | .error (.panic _), _ => trivial

/-- The next token is one of the operators, or there is none. -/
def Follow (os : List Op) (ts : List Tok) : Prop := ∀ t ∈ ts.head?, ∃ o ∈ os, t = .op o

theorem Follow.sees {os : List Op} {ts : List Tok} {toks : List Char} (h : Follow os ts)
    (hd : ∀ o ∈ os, strchr toks o.first = false) : sees toks ts = false := by
  cases ts with
  | nil => rfl
  | cons t ts =>
    obtain ⟨o, ho, rfl⟩ := h t rfl
    exact hd o ho

theorem Follow.mono {os os' : List Op} {ts : List Tok} (h : Follow os ts) (hs : ∀ o ∈ os, o ∈ os') :
    Follow os' ts := fun t ht =>
  let ⟨o, ho, he⟩ := h t ht
  ⟨o, hs o ho, he⟩

theorem follow_cons {os : List Op} {o : Op} {ts : List Tok} (h : o ∈ os) : Follow os (.op o :: ts) := by
  rintro t ⟨⟩
  exact ⟨o, h, rfl⟩

theorem length_extend (i : Nat) (ts : List Tok) : (extend i ts).length ≤ ts.length + 1 := by
  unfold extend
  split <;> simp

/-- There are no more tokens than bytes. -/
theorem length_lex (i : Nat) (cs : List Byte) : (lex i cs).length ≤ cs.length := by
  fun_induction lex i cs with
  | case8 i c d cs _ _ _ _ ih => exact Nat.le_trans (length_extend _ _) (Nat.succ_le_succ ih)
  | _ => simp only [List.length_cons, List.length_nil] at *; omega

section
variable {line : List Byte} {s n : Nat} {ts rest : List Tok}

theorem At.length_lt (h : At line s ts) : ts.length < line.length + 1 := by
  have := length_lex s (line.drop s)
  rw [h.toks, List.length_drop] at this
  omega

/-- A word was read if `gettoken` says so. -/
theorem Gives.word {t : Token} (h : Gives line t ts) (ha : t.ret = ascii 'a') :
    ∃ us, ts = .word t.word :: us ∧ At line t.ps us := by
  have hop : ∀ o : Op, o.ret ≠ ascii 'a' := by
    rintro (_ | _ | _ | _ | _ | (_ | _ | _)) <;> decide
  match ts, h with
  | [], h => exact absurd (h.1.symm.trans ha) (by decide)
  | .op o :: us, h => exact absurd (h.1.symm.trans ha) (hop o)
  | .word w :: us, h => exact ⟨us, by rw [h.2.1], h.2.2⟩

theorem redirOf_ret (op : RedirOp) (w : Span) : redirOf (Op.redir op).ret w = [⟨op, w⟩] := by
  cases op <;> rfl

theorem length_redirToks (rs : List Redir) : (redirToks rs).length = 2 * rs.length := by
  induction rs with
  | nil => rfl
  | cons r rs ih =>
    rw [redirToks, List.flatMap_cons, List.length_append, List.length_cons, ← redirToks, ih]
    simp only [Redir.toks, List.length_cons, List.length_nil]
    omega

theorem first_redir {o : Op} (h : strchr ['<', '>'] o.first = true) : ∃ op, o = .redir op := by
  match o, h with
  | .redir op, _ => exact ⟨op, rfl⟩
  | .bar, h | .lparen, h | .rparen, h | .semi, h | .amp, h => exact absurd h (by decide)

/-- An operator other than redirections is known by its byte. -/
theorem first_single (o' : Op) {o : Op} {x : Char} (h : strchr [x] o.first = true) (hx : o'.first = ascii x)
    (hr : ∀ op, o' ≠ .redir op) : o = o' := by
  have he : o.first = o'.first := by
    rw [hx]
    simpa [strchr] using h
  cases o' with
  | redir op => exact absurd rfl (hr op)
  | bar | lparen | rparen | semi | amp =>
    rcases o with _ | _ | _ | _ | _ | (_ | _ | _)
    all_goals first | rfl | exact absurd he (by decide)

/-- The function for a nonterminal. -/
def Nonterm.parse (line : List Byte) : Nonterm → Nat → Nat → Except Stop (Cmd × Nat)
  | .line => parseline line
  | .pipe => parsepipe line
  | .exec => parseexec line

/-- The operators that can follow a nonterminal. -/
def Nonterm.follow : Nonterm → List Op
  | .line => [.rparen]
  | .pipe => [.rparen, .amp, .semi]
  | .exec => [.bar, .rparen, .amp, .semi]

/-- The calls before the next token. -/
def Nonterm.calls : Nonterm → Nat
  | .line => 4
  | .pipe => 3
  | .exec => 2

/-- The derived command is returned, before what can follow it. -/
def Complete (line : List Byte) (N : Nonterm) (ts : List Tok) (c : Cmd) : Prop :=
  ∀ {s n : Nat} {rest : List Tok}, At line s (ts ++ rest) → Follow N.follow rest → 4 * ts.length + N.calls ≤ n →
    ∃ s', N.parse line n s = .ok (c, s') ∧ At line s' rest

variable (h0 : (0 : Byte) ∉ line)
include h0

/-! ## Redirections -/

theorem sound_parseredirs (h : At line s ts) (hn : ts.length < n) :
    Run (fun r => ∃ us, ts = redirToks r.1 ++ us ∧ At line r.2 us) (parseredirs line n s) := by
  induction n generalizing s ts with
  | zero => omega
  | succ n ih =>
    obtain ⟨s₁, hp, h₁⟩ := h.peek h0 ['<', '>'] (by decide)
    rw [parseredirs, hp]
    dsimp only
    split
    · next hsees =>
        obtain ⟨_, us, rfl, ho⟩ := sees_eq_true hsees
        obtain ⟨op, rfl⟩ := first_redir ho
        obtain ⟨hret, h₂⟩ := h₁.gettoken h0
        have hfile := h₂.gettoken h0
        split
        · trivial
        · next ha =>
            obtain ⟨vs, rfl, h₃⟩ := hfile.word (not_not.mp ha)
            refine (ih h₃ (by simp only [List.length_cons] at hn; omega)).bind ?_
            rintro ⟨rs, s₂⟩ ⟨ws, rfl, h₄⟩
            refine ⟨ws, ?_, h₄⟩
            rw [hret, redirOf_ret]
            rfl
    · exact ⟨ts, rfl, h₁⟩

theorem complete_parseredirs {rs : List Redir} (h : At line s (redirToks rs ++ rest)) (hn : rs.length < n)
    (hf : sees ['<', '>'] rest = false) :
    ∃ s', parseredirs line n s = .ok (rs, s') ∧ At line s' rest := by
  induction rs generalizing s n with
  | nil =>
    obtain ⟨n, rfl⟩ : ∃ m, n = m + 1 := ⟨n - 1, by omega⟩
    obtain ⟨s₁, hp, h₁⟩ := h.peek h0 ['<', '>'] (by decide)
    refine ⟨s₁, ?_, h₁⟩
    rw [parseredirs, hp]
    dsimp only
    rw [show redirToks [] ++ rest = rest from rfl, hf]
    rfl
  | cons r rs ih =>
    obtain ⟨n, rfl⟩ : ∃ m, n = m + 1 := ⟨n - 1, by omega⟩
    obtain ⟨s₁, hp, h₁⟩ := h.peek h0 ['<', '>'] (by decide)
    have hcons : redirToks (r :: rs) ++ rest =
        .op (.redir r.op) :: .word r.file :: (redirToks rs ++ rest) := rfl
    rw [hcons] at hp h₁
    obtain ⟨hret, h₂⟩ := h₁.gettoken h0
    obtain ⟨ha, hw, h₃⟩ := h₂.gettoken h0
    rw [List.length_cons] at hn
    obtain ⟨s', hrest, h'⟩ := ih h₃ (Nat.lt_of_succ_lt_succ hn)
    have hsees : sees ['<', '>'] (.op (.redir r.op) :: .word r.file :: (redirToks rs ++ rest)) = true := by
      rw [sees]
      cases r.op <;> decide
    refine ⟨s', ?_, h'⟩
    rw [parseredirs, hp, hsees]
    dsimp only
    rw [if_pos rfl, if_neg (not_not.mpr ha), hrest, hret, hw, redirOf_ret]
    rfl

/-! ## Loops -/

/-- The tokens of words with the redirections after each. -/
def argToks (args : List (Span × List Redir)) : List Tok := args.flatMap fun a => .word a.1 :: redirToks a.2

omit h0 in
theorem length_argToks (args : List (Span × List Redir)) : args.length ≤ (argToks args).length := by
  induction args with
  | nil => rfl
  | cons a args ih =>
    rw [argToks, List.flatMap_cons, List.length_append, ← argToks]
    simp only [List.length_cons]
    omega

theorem sound_parseargs {argv : List Span} {rs : List Redir} (h : At line s ts) (hn : ts.length < n)
    (hargc : argv.length < maxArgs) :
    Run (fun r => ∃ args us, ts = argToks args ++ us ∧ At line r.2.2 us ∧ r.1 = argv ++ args.map Prod.fst ∧
      r.2.1 = rs ++ args.flatMap Prod.snd ∧ r.1.length < maxArgs) (parseargs line n argv rs s) := by
  induction n generalizing s ts argv rs with
  | zero => omega
  | succ n ih =>
    obtain ⟨s₁, hp, h₁⟩ := h.peek h0 ['|', ')', '&', ';'] (by decide)
    rw [parseargs, hp]
    dsimp only
    split
    · exact ⟨[], ts, rfl, h₁, by simp, by simp, hargc⟩
    · have hg := h₁.gettoken h0
      split
      · next hz =>
          -- at the end of the line
          have hnil : ts = [] ∧ At line (gettoken line s₁).ps [] := by
            match ts, hg with
            | [], hg => exact ⟨rfl, hg.2⟩
            | .word w :: us, hg => exact absurd (hg.1.symm.trans hz) (by decide)
            | .op o :: us, hg =>
              refine absurd (hg.1.symm.trans hz) ?_
              rcases o with _ | _ | _ | _ | _ | (_ | _ | _) <;> decide
          obtain ⟨rfl, h₂⟩ := hnil
          exact ⟨[], [], rfl, h₂, by simp, by simp, hargc⟩
      · split
        · trivial
        · next ha =>
            obtain ⟨us, rfl, h₂⟩ := hg.word (not_not.mp ha)
            split
            · trivial
            · next hmax =>
                refine (sound_parseredirs h0 h₂ h₂.length_lt).bind ?_
                rintro ⟨rs', s₂⟩ ⟨vs, rfl, h₃⟩
                simp only [List.length_cons, List.length_append] at hn
                refine (ih h₃ (by omega) (by omega)).mono ?_
                rintro ⟨argv', rs'', s₃⟩ ⟨args, ws, rfl, h₄, hargv, hrs, hlen⟩
                refine ⟨((gettoken line s₁).word, rs') :: args, ws, ?_, h₄, ?_, ?_, hlen⟩
                · simp [argToks]
                · exact hargv.trans (by simp)
                · exact hrs.trans (by simp)

theorem complete_parseargs {argv : List Span} {rs : List Redir} {args : List (Span × List Redir)}
    (h : At line s (argToks args ++ rest)) (hn : args.length < n) (hargc : argv.length + args.length < maxArgs)
    (hf : Follow [.bar, .rparen, .amp, .semi] rest) :
    ∃ s', parseargs line n argv rs s =
      .ok (argv ++ args.map Prod.fst, rs ++ args.flatMap Prod.snd, s') ∧ At line s' rest := by
  obtain ⟨n, rfl⟩ : ∃ m, n = m + 1 := ⟨n - 1, by omega⟩
  induction args generalizing s n argv rs with
  | nil =>
    obtain ⟨s₁, hp, h₁⟩ := h.peek h0 ['|', ')', '&', ';'] (by decide)
    rw [show argToks [] ++ rest = rest from rfl] at hp h₁
    rw [parseargs, hp]
    dsimp only
    cases rest with
    | nil =>
      obtain ⟨hz, h₂⟩ := h₁.gettoken h0
      refine ⟨_, ?_, h₂⟩
      rw [if_neg (by simp [sees]), if_pos hz]
      simp
      rfl
    | cons t us =>
      obtain ⟨o, ho, rfl⟩ := hf t rfl
      refine ⟨s₁, ?_, h₁⟩
      have hsees : sees ['|', ')', '&', ';'] (.op o :: us) = true := by
        rw [sees]
        simp only [List.mem_cons, List.not_mem_nil, or_false] at ho
        rcases ho with rfl | rfl | rfl | rfl <;> decide
      rw [if_pos hsees]
      simp
      rfl
  | cons a args ih =>
    obtain ⟨s₁, hp, h₁⟩ := h.peek h0 ['|', ')', '&', ';'] (by decide)
    have hcons : argToks (a :: args) ++ rest = .word a.1 :: (redirToks a.2 ++ (argToks args ++ rest)) := by
      simp [argToks]
    rw [hcons] at hp h₁
    obtain ⟨ha, hw, h₂⟩ := h₁.gettoken h0
    have hrest : sees ['<', '>'] (argToks args ++ rest) = false := by
      cases args with
      | nil =>
        refine Follow.sees hf fun o ho => ?_
        simp only [List.mem_cons, List.not_mem_nil, or_false] at ho
        rcases ho with rfl | rfl | rfl | rfl <;> decide
      | cons b args => rfl
    have hlen : a.2.length < line.length + 1 := by
      have := h₂.length_lt
      have hr := length_redirToks a.2
      rw [List.length_append] at this
      omega
    obtain ⟨s₂, hredirs, h₃⟩ := complete_parseredirs h0 h₂ hlen hrest
    simp only [List.length_cons] at hn hargc
    obtain ⟨m, rfl⟩ : ∃ m, n = m + 1 := ⟨n - 1, by omega⟩
    have hargc' : (argv ++ [a.1]).length + args.length < maxArgs := by
      rw [List.length_append, List.length_singleton]
      omega
    obtain ⟨s', hargs, h'⟩ := @ih s₂ _ (rs ++ a.2) h₃ hargc' m (by omega)
    refine ⟨s', ?_, h'⟩
    rw [parseargs, hp]
    dsimp only
    rw [if_neg (by simp [sees]), if_neg (by rw [ha]; decide), if_neg (not_not.mpr ha), hw,
      if_neg (by simp; omega), hredirs]
    refine hargs.trans ?_
    simp

theorem sound_parsebacks {c : Cmd} (h : At line s ts) (hn : ts.length < n) :
    Run (fun r => ∃ k us, ts = List.replicate k (.op .amp) ++ us ∧ At line r.2 us ∧ r.1 = backs k c)
      (parsebacks line n c s) := by
  induction n generalizing s ts c with
  | zero => omega
  | succ n ih =>
    obtain ⟨s₁, hp, h₁⟩ := h.peek h0 ['&'] (by decide)
    rw [parsebacks, hp]
    dsimp only
    split
    · next hsees =>
        obtain ⟨o, us, rfl, ho⟩ := sees_eq_true hsees
        obtain rfl := first_single .amp ho rfl nofun
        have h₂ := (h₁.gettoken h0).2
        refine (ih h₂ (by simp only [List.length_cons] at hn; omega)).mono ?_
        rintro ⟨c', s₂⟩ ⟨k, vs, rfl, h₃, hc⟩
        exact ⟨k + 1, vs, rfl, h₃, hc⟩
    · exact ⟨0, ts, rfl, h₁, rfl⟩

theorem complete_parsebacks {c : Cmd} {k : Nat} (h : At line s (List.replicate k (.op .amp) ++ rest)) (hn : k < n)
    (hf : sees ['&'] rest = false) :
    ∃ s', parsebacks line n c s = .ok (backs k c, s') ∧ At line s' rest := by
  obtain ⟨n, rfl⟩ : ∃ m, n = m + 1 := ⟨n - 1, by omega⟩
  induction k generalizing s n c with
  | zero =>
    obtain ⟨s₁, hp, h₁⟩ := h.peek h0 ['&'] (by decide)
    refine ⟨s₁, ?_, h₁⟩
    rw [parsebacks, hp]
    dsimp only
    rw [show List.replicate 0 (Tok.op .amp) ++ rest = rest from rfl, hf]
    rfl
  | succ k ih =>
    obtain ⟨s₁, hp, h₁⟩ := h.peek h0 ['&'] (by decide)
    rw [List.replicate_succ, List.cons_append] at hp h₁
    have h₂ := (h₁.gettoken h0).2
    obtain ⟨m, rfl⟩ : ∃ m, n = m + 1 := ⟨n - 1, by omega⟩
    obtain ⟨s', hrest, h'⟩ := ih (c := .back c) h₂ m (by omega)
    refine ⟨s', ?_, h'⟩
    rw [parsebacks, hp]
    exact hrest

/-! ## Commands -/

/-- The tokens that were read derive the command. -/
def Reads (line : List Byte) (N : Nonterm) (ts : List Tok) (r : Cmd × Nat) : Prop :=
  ∃ us vs, ts = us ++ vs ∧ At line r.2 vs ∧ Derives N us r.1

/-- With fuel `n`, every function reads what derives its result, or panics. -/
structure Sound (line : List Byte) (n : Nat) : Prop where
  parseline {s : Nat} {ts : List Tok} :
    At line s ts → 4 * ts.length + 4 ≤ n → Run (Reads line .line ts) (parseline line n s)
  parsepipe {s : Nat} {ts : List Tok} :
    At line s ts → 4 * ts.length + 3 ≤ n → Run (Reads line .pipe ts) (parsepipe line n s)
  parseexec {s : Nat} {ts : List Tok} :
    At line s ts → 4 * ts.length + 2 ≤ n → Run (Reads line .exec ts) (parseexec line n s)
  parseblock {s : Nat} {ts : List Tok} :
    At line s ts → 4 * ts.length + 1 ≤ n → Run (Reads line .exec ts) (parseblock line n s)

theorem sound_parseline (ih : Sound line n) (h : At line s ts) (hn : 4 * ts.length + 3 ≤ n) :
    Run (Reads line .line ts) (parseline line (n + 1) s) := by
  rw [parseline]
  refine (ih.parsepipe h hn).bind ?_
  rintro ⟨c, s₁⟩ ⟨us, vs, rfl, h₁, hd⟩
  refine (sound_parsebacks h0 h₁ h₁.length_lt).bind ?_
  rintro ⟨_, s₂⟩ ⟨k, ws, rfl, h₂, rfl⟩
  obtain ⟨s₃, hp, h₃⟩ := h₂.peek h0 [';'] (by decide)
  dsimp only at hp ⊢
  rw [hp]
  dsimp only
  split
  · next hsees =>
      obtain ⟨o, xs, rfl, ho⟩ := sees_eq_true hsees
      obtain rfl := first_single .semi ho rfl (by simp)
      have h₄ := (h₃.gettoken h0).2
      simp only [List.length_append, List.length_cons] at hn
      refine (ih.parseline h₄ (by omega)).bind ?_
      rintro ⟨d, s₅⟩ ⟨ys, zs, rfl, h₅, hd'⟩
      exact ⟨_, zs, by simp, h₅, .lineList k hd hd'⟩
  · exact ⟨_, ws, by simp, h₃, .line k hd⟩

theorem sound_parsepipe (ih : Sound line n) (h : At line s ts) (hn : 4 * ts.length + 2 ≤ n) :
    Run (Reads line .pipe ts) (parsepipe line (n + 1) s) := by
  rw [parsepipe]
  refine (ih.parseexec h hn).bind ?_
  rintro ⟨c, s₁⟩ ⟨us, vs, rfl, h₁, hd⟩
  obtain ⟨s₂, hp, h₂⟩ := h₁.peek h0 ['|'] (by decide)
  dsimp only at hp ⊢
  rw [hp]
  dsimp only
  split
  · next hsees =>
      obtain ⟨o, xs, rfl, ho⟩ := sees_eq_true hsees
      obtain rfl := first_single .bar ho rfl (by simp)
      have h₃ := (h₂.gettoken h0).2
      simp only [List.length_append, List.length_cons] at hn
      refine (ih.parsepipe h₃ (by omega)).bind ?_
      rintro ⟨d, s₄⟩ ⟨ys, zs, rfl, h₄, hd'⟩
      exact ⟨_, zs, by simp, h₄, .pipeBar hd hd'⟩
  · exact ⟨us, vs, rfl, h₂, .pipe hd⟩

theorem sound_parseexec (ih : Sound line n) (h : At line s ts) (hn : 4 * ts.length + 1 ≤ n) :
    Run (Reads line .exec ts) (parseexec line (n + 1) s) := by
  obtain ⟨s₁, hp, h₁⟩ := h.peek h0 ['('] (by decide)
  rw [parseexec, hp]
  dsimp only
  split
  · exact ih.parseblock h₁ hn
  · refine (sound_parseredirs h0 h₁ h₁.length_lt).bind ?_
    rintro ⟨rs, s₂⟩ ⟨us, rfl, h₂⟩
    refine (sound_parseargs h0 h₂ h₂.length_lt (by decide)).bind ?_
    rintro ⟨argv, rs', s₃⟩ ⟨args, vs, rfl, h₃, hargv, hrs, hlen⟩
    dsimp only at hargv hrs hlen h₃
    subst hargv hrs
    rw [List.nil_append] at hlen ⊢
    rw [List.length_map] at hlen
    exact ⟨redirToks rs ++ argToks args, vs, by simp, h₃, .simple rs args hlen⟩

theorem sound_parseblock (ih : Sound line n) (h : At line s ts) (hn : 4 * ts.length ≤ n) :
    Run (Reads line .exec ts) (parseblock line (n + 1) s) := by
  obtain ⟨s₁, hp, h₁⟩ := h.peek h0 ['('] (by decide)
  rw [parseblock, hp]
  dsimp only
  split
  · trivial
  · next hsees =>
      obtain ⟨o, us, rfl, ho⟩ := sees_eq_true (by simpa using hsees)
      obtain rfl := first_single .lparen ho rfl (by simp)
      have h₂ := (h₁.gettoken h0).2
      rw [List.length_cons] at hn
      refine (ih.parseline h₂ (by omega)).bind ?_
      rintro ⟨c, s₃⟩ ⟨vs, ws, rfl, h₃, hd⟩
      obtain ⟨s₄, hp', h₄⟩ := h₃.peek h0 [')'] (by decide)
      dsimp only at hp' ⊢
      rw [hp']
      dsimp only
      split
      · trivial
      · next hsees' =>
          obtain ⟨o, xs, rfl, ho⟩ := sees_eq_true (by simpa using hsees')
          obtain rfl := first_single .rparen ho rfl (by simp)
          have h₅ := (h₄.gettoken h0).2
          refine (sound_parseredirs h0 h₅ h₅.length_lt).bind ?_
          rintro ⟨rs, s₆⟩ ⟨ys, rfl, h₆⟩
          exact ⟨_, ys, by simp, h₆, .block hd rs⟩

theorem sound (n : Nat) : Sound line n := by
  induction n with
  | zero => constructor <;> intros <;> omega
  | succ n ih =>
    exact ⟨fun h hn => sound_parseline h0 ih h (by omega), fun h hn => sound_parsepipe h0 ih h (by omega),
      fun h hn => sound_parseexec h0 ih h (by omega), fun h hn => sound_parseblock h0 ih h (by omega)⟩

theorem complete_line {c : Cmd} (k : Nat) (h : Complete line .pipe ts c) :
    Complete line .line (ts ++ List.replicate k (.op .amp)) (backs k c) := by
  intro s n rest hs hf hn
  simp only [List.length_append, List.length_replicate, Nonterm.calls] at hn
  obtain ⟨n, rfl⟩ : ∃ m, n = m + 1 := ⟨n - 1, by omega⟩
  rw [List.append_assoc] at hs
  have hamp : Follow Nonterm.pipe.follow (List.replicate k (.op .amp) ++ rest) := by
    cases k with
    | zero => exact hf.mono (by decide)
    | succ k => exact follow_cons (by decide)
  obtain ⟨s₁, hpipe, h₁⟩ := h (n := n) hs hamp (by simp only [Nonterm.calls]; omega)
  have hk : k < line.length + 1 := by
    have := h₁.length_lt
    simp only [List.length_append, List.length_replicate] at this
    omega
  obtain ⟨s₂, hbacks, h₂⟩ := complete_parsebacks h0 h₁ hk (hf.sees (by decide))
  obtain ⟨s₃, hp, h₃⟩ := h₂.peek h0 [';'] (by decide)
  rw [hf.sees (by decide)] at hp
  refine ⟨s₃, ?_, h₃⟩
  dsimp only [Nonterm.parse] at hpipe ⊢
  rw [parseline, hpipe]
  dsimp only [bind, Except.bind]
  rw [hbacks]
  dsimp only
  rw [hp]
  rfl

theorem complete_lineList {us : List Tok} {c d : Cmd} (k : Nat) (h : Complete line .pipe ts c)
    (h' : Complete line .line us d) :
    Complete line .line (ts ++ List.replicate k (.op .amp) ++ .op .semi :: us) (.list (backs k c) d) := by
  intro s n rest hs hf hn
  simp only [List.length_append, List.length_replicate, List.length_cons, Nonterm.calls] at hn
  obtain ⟨n, rfl⟩ : ∃ m, n = m + 1 := ⟨n - 1, by omega⟩
  rw [List.append_assoc, List.append_assoc] at hs
  have hamp : Follow Nonterm.pipe.follow (List.replicate k (.op .amp) ++ (.op .semi :: us ++ rest)) := by
    cases k <;> exact follow_cons (by decide)
  obtain ⟨s₁, hpipe, h₁⟩ := h (n := n) hs hamp (by simp only [Nonterm.calls]; omega)
  have hk : k < line.length + 1 := by
    have := h₁.length_lt
    simp only [List.length_append, List.length_replicate] at this
    omega
  obtain ⟨s₂, hbacks, h₂⟩ := complete_parsebacks h0 h₁ hk rfl
  obtain ⟨s₃, hp, h₃⟩ := h₂.peek h0 [';'] (by decide)
  rw [show sees [';'] (.op .semi :: us ++ rest) = true from rfl] at hp
  have h₄ := (h₃.gettoken h0).2
  obtain ⟨s₅, hline, h₅⟩ := h' (n := n) h₄ hf (by simp only [Nonterm.calls]; omega)
  refine ⟨s₅, ?_, h₅⟩
  dsimp only [Nonterm.parse] at hpipe hline ⊢
  rw [parseline, hpipe]
  dsimp only [bind, Except.bind]
  rw [hbacks]
  dsimp only
  rw [hp]
  dsimp only
  rw [if_pos rfl, hline]
  rfl

theorem complete_pipe {c : Cmd} (h : Complete line .exec ts c) : Complete line .pipe ts c := by
  intro s n rest hs hf hn
  simp only [Nonterm.calls] at hn
  obtain ⟨n, rfl⟩ : ∃ m, n = m + 1 := ⟨n - 1, by omega⟩
  obtain ⟨s₁, hexec, h₁⟩ := h (n := n) hs (hf.mono (by decide)) (by simp only [Nonterm.calls]; omega)
  obtain ⟨s₂, hp, h₂⟩ := h₁.peek h0 ['|'] (by decide)
  rw [hf.sees (by decide)] at hp
  refine ⟨s₂, ?_, h₂⟩
  dsimp only [Nonterm.parse] at hexec ⊢
  rw [parsepipe, hexec]
  dsimp only [bind, Except.bind]
  rw [hp]
  rfl

theorem complete_pipeBar {us : List Tok} {c d : Cmd} (h : Complete line .exec ts c) (h' : Complete line .pipe us d) :
    Complete line .pipe (ts ++ .op .bar :: us) (.pipe c d) := by
  intro s n rest hs hf hn
  simp only [List.length_append, List.length_cons, Nonterm.calls] at hn
  obtain ⟨n, rfl⟩ : ∃ m, n = m + 1 := ⟨n - 1, by omega⟩
  rw [List.append_assoc] at hs
  obtain ⟨s₁, hexec, h₁⟩ := h (n := n) hs (follow_cons (by decide)) (by simp only [Nonterm.calls]; omega)
  obtain ⟨s₂, hp, h₂⟩ := h₁.peek h0 ['|'] (by decide)
  rw [show sees ['|'] (.op .bar :: us ++ rest) = true from rfl] at hp
  have h₃ := (h₂.gettoken h0).2
  obtain ⟨s₄, hpipe, h₄⟩ := h' (n := n) h₃ hf (by simp only [Nonterm.calls]; omega)
  refine ⟨s₄, ?_, h₄⟩
  dsimp only [Nonterm.parse] at hexec hpipe ⊢
  rw [parsepipe, hexec]
  dsimp only [bind, Except.bind]
  rw [hp]
  dsimp only
  rw [if_pos rfl, hpipe]
  rfl

theorem complete_block {c : Cmd} (h : Complete line .line ts c) (rs : List Redir) :
    Complete line .exec (.op .lparen :: ts ++ .op .rparen :: redirToks rs) (redircmds c rs) := by
  intro s n rest hs hf hn
  simp only [List.length_append, List.length_cons, Nonterm.calls] at hn
  obtain ⟨n, rfl⟩ : ∃ m, n = m + 2 := ⟨n - 2, by omega⟩
  rw [List.append_assoc] at hs
  obtain ⟨s₁, hp, h₁⟩ := hs.peek h0 ['('] (by decide)
  obtain ⟨s₂, hp', h₂⟩ := h₁.peek h0 ['('] (by decide)
  rw [show sees ['('] (.op .lparen :: ts ++ (.op .rparen :: redirToks rs ++ rest)) = true from rfl] at hp hp'
  have h₃ := (h₂.gettoken h0).2
  obtain ⟨s₄, hline, h₄⟩ := h (n := n) h₃ (follow_cons (by decide)) (by simp only [Nonterm.calls]; omega)
  obtain ⟨s₅, hp'', h₅⟩ := h₄.peek h0 [')'] (by decide)
  rw [show sees [')'] (.op .rparen :: redirToks rs ++ rest) = true from rfl] at hp''
  have h₆ : At line _ (redirToks rs ++ rest) := (h₅.gettoken h0).2
  have hlen : rs.length < line.length + 1 := by
    have := h₆.length_lt
    rw [List.length_append, length_redirToks] at this
    omega
  obtain ⟨s₇, hredirs, h₇⟩ := complete_parseredirs h0 h₆ hlen (hf.sees (by decide))
  refine ⟨s₇, ?_, h₇⟩
  dsimp only [Nonterm.parse] at hline ⊢
  rw [parseexec, hp]
  dsimp only
  rw [if_pos rfl, parseblock, hp']
  dsimp only
  rw [if_neg (by decide), hline]
  dsimp only [bind, Except.bind]
  rw [hp'']
  dsimp only
  rw [if_neg (by decide), hredirs]
  rfl

theorem complete_simple (rs : List Redir) (args : List (Span × List Redir)) (h : args.length < maxArgs) :
    Complete line .exec (redirToks rs ++ argToks args)
      (redircmds (.exec (args.map Prod.fst)) (rs ++ args.flatMap Prod.snd)) := by
  intro s n rest hs hf hn
  simp only [Nonterm.calls] at hn
  obtain ⟨n, rfl⟩ : ∃ m, n = m + 1 := ⟨n - 1, by omega⟩
  rw [List.append_assoc] at hs
  obtain ⟨s₁, hp, h₁⟩ := hs.peek h0 ['('] (by decide)
  have hparen : sees ['('] (redirToks rs ++ (argToks args ++ rest)) = false := by
    match rs, args with
    | ⟨op, _⟩ :: rs, _ => cases op <;> rfl
    | [], _ :: _ => rfl
    | [], [] => exact hf.sees (by decide)
  rw [hparen] at hp
  have hlen : rs.length < line.length + 1 := by
    have := h₁.length_lt
    rw [List.length_append, length_redirToks] at this
    omega
  have hargs : sees ['<', '>'] (argToks args ++ rest) = false := by
    cases args with
    | nil => exact hf.sees (by decide)
    | cons a args => rfl
  obtain ⟨s₂, hredirs, h₂⟩ := complete_parseredirs h0 h₁ hlen hargs
  have hlen' : args.length < line.length + 1 := by
    have := h₂.length_lt
    have hl := length_argToks args
    rw [List.length_append] at this
    omega
  have hargc : ([] : List Span).length + args.length < maxArgs := by simpa using h
  obtain ⟨s₃, hargv, h₃⟩ := @complete_parseargs _ _ _ _ h0 [] rs args h₂ hlen' hargc hf
  refine ⟨s₃, ?_, h₃⟩
  dsimp only [Nonterm.parse]
  rw [parseexec, hp]
  dsimp only
  rw [if_neg (by decide), hredirs]
  dsimp only [bind, Except.bind]
  rw [hargv]
  rfl

theorem complete {N : Nonterm} {c : Cmd} (hd : Derives N ts c) : Complete line N ts c := by
  induction hd with
  | line k _ ih => exact complete_line h0 k ih
  | lineList k _ _ ih ih' => exact complete_lineList h0 k ih ih'
  | pipe _ ih => exact complete_pipe h0 ih
  | pipeBar _ _ ih ih' => exact complete_pipeBar h0 ih ih'
  | block _ rs ih => exact complete_block h0 ih rs
  | simple rs args h => exact complete_simple h0 rs args h

end

end MiniOS.Sh
