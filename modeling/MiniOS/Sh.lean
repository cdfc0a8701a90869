import MiniOS.Riscv

/-!
# MiniOS.Sh

The parser of `user/sh.c`, and the grammar it is for.  The line is a C string;
pointers into it are positions, and `s == es` is the position of its 0.
`malloc` always succeeds.

The functions that call each other take fuel, which `parsecmd` gets from its
caller.
-/

namespace MiniOS.Sh

/-- A character as a byte. -/
def ascii (c : Char) : Byte := BitVec.ofNat 8 c.toNat

/-- `strchr(s, c) != 0`; there is no 0 in `s`. -/
def strchr (s : List Char) (c : Byte) : Bool := (s.map ascii).contains c

def whitespace : List Char := [' ', '\t', '\r', '\n', '\x0b']

def symbols : List Char := ['<', '|', '>', '&', ';', '(', ')']

/-- `MAXARGS`. -/
abbrev maxArgs : Nat := 10

/-- Why `parsecmd` does not return. -/
inductive Stop
  | panic (msg : String)
  | fuel
deriving DecidableEq

/-- A word: the pointers `q` and `eq` to its first byte and after its last. -/
structure Span where
  q : Nat
  eq : Nat
deriving DecidableEq

/-- `struct cmd`. -/
inductive Cmd
  | exec (argv : List Span)
  | redir (cmd : Cmd) (file : Span) (mode fd : Nat)
  | pipe (left right : Cmd)
  | list (left right : Cmd)
  | back (cmd : Cmd)
deriving DecidableEq

/-! ## Tokens -/

section
variable (line : List Byte)

/-- The byte at a position. -/
def ch (i : Nat) : Byte := line.getD i 0

/-- `while(s < es && p(*s)) s++`. -/
def scan (p : Byte → Bool) : Nat → Nat → Nat
  | 0, s => s
  | n + 1, s => if s < line.length ∧ p (ch line s) = true then scan p n (s + 1) else s

def skipSpace (s : Nat) : Nat := scan line (strchr whitespace) (line.length - s) s

/-- What `gettoken` returns, and what it stores in `*q`, `*eq` and `*ps`. -/
structure Token where
  ret : Byte
  word : Span
  ps : Nat

/-- The `switch` of `gettoken` at `s`: what it returns, and where the token ends. -/
def readToken (s : Nat) : Byte × Nat :=
  let c := ch line s
  if c = 0 then (0, s)
  else if strchr ['|', '(', ')', ';', '&', '<'] c then (c, s + 1)
  else if c = ascii '>' then if ch line (s + 1) = ascii '>' then (ascii '+', s + 2) else (c, s + 1)
  else (ascii 'a', scan line (fun c => !strchr whitespace c && !strchr symbols c) (line.length - s) s)

/-- `gettoken`. -/
def gettoken (ps : Nat) : Token :=
  let s := skipSpace line ps
  let (ret, e) := readToken line s
  ⟨ret, ⟨s, e⟩, skipSpace line e⟩

/-- `peek`, with the new `*ps`. -/
def peek (ps : Nat) (toks : List Char) : Bool × Nat :=
  let s := skipSpace line ps
  (ch line s ≠ 0 && strchr toks (ch line s), s)

/-! ## Commands -/

/-- `O_RDONLY`, `O_WRONLY|O_CREATE|O_TRUNC` and `O_WRONLY|O_CREATE`, and the file descriptor. -/
inductive RedirOp
  | input
  | output
  | append
deriving DecidableEq

def RedirOp.mode : RedirOp → Nat
  | .input => 0x000
  | .output => 0x001 ||| 0x200 ||| 0x400
  | .append => 0x001 ||| 0x200

def RedirOp.fd : RedirOp → Nat
  | .input => 0
  | .output | .append => 1

/-- A redirection, the arguments of `redircmd`. -/
structure Redir where
  op : RedirOp
  file : Span
deriving DecidableEq

/-- `redircmd` for each of the redirections. -/
def redircmds (cmd : Cmd) (rs : List Redir) : Cmd :=
  rs.foldl (fun c r => .redir c r.file r.op.mode r.op.fd) cmd

/-- The `switch` of `parseredirs`. -/
def redirOf (tok : Byte) (file : Span) : List Redir :=
  if tok = ascii '<' then [⟨.input, file⟩]
  else if tok = ascii '>' then [⟨.output, file⟩]
  else if tok = ascii '+' then [⟨.append, file⟩]
  else []

/-- The loop of `parseredirs`: the redirections that it puts around the command. -/
def parseredirs : Nat → Nat → Except Stop (List Redir × Nat)
  | 0, _ => .error .fuel
  | n + 1, ps => do
      let (more, ps) := peek line ps ['<', '>']
      if more then
        let tok := gettoken line ps
        let file := gettoken line tok.ps
        if file.ret ≠ ascii 'a' then throw (.panic "missing file for redirection")
        let (rs, ps) ← parseredirs n file.ps
        return (redirOf tok.ret file.word ++ rs, ps)
      else return ([], ps)

/-- The loop of `parseexec`, with the words so far: all words and redirections.  `ret` is the node
`cmd`, which is filled in place, with the redirections around it. -/
def parseargs : Nat → List Span → List Redir → Nat → Except Stop (List Span × List Redir × Nat)
  | 0, _, _, _ => .error .fuel
  | n + 1, argv, rs, ps => do
      let (stop, ps) := peek line ps ['|', ')', '&', ';']
      if stop then return (argv, rs, ps)
      let tok := gettoken line ps
      if tok.ret = 0 then return (argv, rs, tok.ps)
      if tok.ret ≠ ascii 'a' then throw (.panic "syntax")
      let argv := argv ++ [tok.word]
      if maxArgs ≤ argv.length then throw (.panic "too many args")
      let (rs', ps) ← parseredirs line (line.length + 1) tok.ps
      parseargs n argv (rs ++ rs') ps

/-- The loop of `parseline` over `&`. -/
def parsebacks : Nat → Cmd → Nat → Except Stop (Cmd × Nat)
  | 0, _, _ => .error .fuel
  | n + 1, cmd, ps => do
      let (more, ps) := peek line ps ['&']
      if more then parsebacks n (.back cmd) (gettoken line ps).ps
      else return (cmd, ps)

mutual

def parseline : Nat → Nat → Except Stop (Cmd × Nat)
  | 0, _ => .error .fuel
  | n + 1, ps => do
      let (cmd, ps) ← parsepipe n ps
      let (cmd, ps) ← parsebacks line (line.length + 1) cmd ps
      let (more, ps) := peek line ps [';']
      if more then
        let (right, ps) ← parseline n (gettoken line ps).ps
        return (.list cmd right, ps)
      else return (cmd, ps)

def parsepipe : Nat → Nat → Except Stop (Cmd × Nat)
  | 0, _ => .error .fuel
  | n + 1, ps => do
      let (cmd, ps) ← parseexec n ps
      let (more, ps) := peek line ps ['|']
      if more then
        let (right, ps) ← parsepipe n (gettoken line ps).ps
        return (.pipe cmd right, ps)
      else return (cmd, ps)

def parseexec : Nat → Nat → Except Stop (Cmd × Nat)
  | 0, _ => .error .fuel
  | n + 1, ps => do
      let (block, ps) := peek line ps ['(']
      if block then parseblock n ps
      else
        let (rs, ps) ← parseredirs line (line.length + 1) ps
        let (argv, rs, ps) ← parseargs line (line.length + 1) [] rs ps
        return (redircmds (.exec argv) rs, ps)

def parseblock : Nat → Nat → Except Stop (Cmd × Nat)
  | 0, _ => .error .fuel
  | n + 1, ps => do
      let (opening, ps) := peek line ps ['(']
      if !opening then throw (.panic "parseblock")
      let (cmd, ps) ← parseline n (gettoken line ps).ps
      let (closing, ps) := peek line ps [')']
      if !closing then throw (.panic "syntax - missing )")
      let (rs, ps) ← parseredirs line (line.length + 1) (gettoken line ps).ps
      return (redircmds cmd rs, ps)

end

/-- `nulterminate`, on the bytes of the line. -/
def nulterminate : Cmd → (Nat → Byte) → Nat → Byte
  | .exec argv, buf => argv.foldl (fun buf w => Function.update buf w.eq 0) buf
  | .redir cmd file _ _, buf => Function.update (nulterminate cmd buf) file.eq 0
  | .pipe left right, buf | .list left right, buf => nulterminate right (nulterminate left buf)
  | .back cmd, buf => nulterminate cmd buf

/-- `parsecmd`: the command, and the line with its words terminated. -/
def parsecmd (fuel : Nat) : Except Stop (Cmd × (Nat → Byte)) := do
  let (cmd, s) ← parseline line fuel 0
  let (_, s) := peek line s []
  if s ≠ line.length then throw (.panic "syntax") -- leftovers
  return (cmd, nulterminate cmd (ch line))

end

/-! ## The grammar -/

/-- A symbol, or `>>`. -/
inductive Op
  | bar
  | lparen
  | rparen
  | semi
  | amp
  | redir (op : RedirOp)
deriving DecidableEq

inductive Tok
  | op (o : Op)
  | word (w : Span)
deriving DecidableEq

/-- The operator of one byte. -/
def opOf (c : Byte) : Option Op :=
  if c = ascii '|' then some .bar
  else if c = ascii '(' then some .lparen
  else if c = ascii ')' then some .rparen
  else if c = ascii ';' then some .semi
  else if c = ascii '&' then some .amp
  else if c = ascii '<' then some (.redir .input)
  else if c = ascii '>' then some (.redir .output)
  else none

/-- The byte at `i` is put in front of a word that begins after it. -/
def extend (i : Nat) : List Tok → List Tok
  | .word w :: ts => .word ⟨i, w.eq⟩ :: ts
  | ts => .word ⟨i, i + 1⟩ :: ts

/-- A byte of a word. -/
def isWord (c : Byte) : Bool := !strchr whitespace c && !strchr symbols c

/-- The tokens of a text at position `i`: words are as long as possible, and so is `>>`. -/
def lex : Nat → List Byte → List Tok
  | _, [] => []
  | i, [c] =>
    if strchr whitespace c then []
    else match opOf c with
      | some o => [.op o]
      | none => [.word ⟨i, i + 1⟩]
  | i, c :: d :: cs =>
    if strchr whitespace c then lex (i + 1) (d :: cs)
    else if c = ascii '>' ∧ d = ascii '>' then .op (.redir .append) :: lex (i + 2) cs
    else match opOf c with
      | some o => .op o :: lex (i + 1) (d :: cs)
      | none =>
        if isWord d then extend i (lex (i + 1) (d :: cs)) else .word ⟨i, i + 1⟩ :: lex (i + 1) (d :: cs)

/-- The tokens of a line. -/
def tokens (line : List Byte) : List Tok := lex 0 line

def Redir.toks (r : Redir) : List Tok := [.op (.redir r.op), .word r.file]

def redirToks (rs : List Redir) : List Tok := rs.flatMap Redir.toks

inductive Nonterm
  | line
  | pipe
  | exec

/-- `cmd` with `n` times `backcmd` around it. -/
def backs : Nat → Cmd → Cmd
  | 0, cmd => cmd
  | n + 1, cmd => backs n (.back cmd)

/-- The tokens are derived from the nonterminal, and the derivation gives the command:

* line ::= pipe `&`* [`;` line]
* pipe ::= exec [`|` pipe]
* exec ::= `(` line `)` redir* | redir* (word redir*)*
* redir ::= (`<` | `>` | `>>`) word

A simple command has less than `MAXARGS` words. -/
inductive Derives : Nonterm → List Tok → Cmd → Prop
  | line {ts : List Tok} {c : Cmd} (n : Nat) (hp : Derives .pipe ts c) :
      Derives .line (ts ++ List.replicate n (.op .amp)) (backs n c)
  | lineList {ts us : List Tok} {c d : Cmd} (n : Nat) (hp : Derives .pipe ts c) (hl : Derives .line us d) :
      Derives .line (ts ++ List.replicate n (.op .amp) ++ .op .semi :: us) (.list (backs n c) d)
  | pipe {ts : List Tok} {c : Cmd} (he : Derives .exec ts c) : Derives .pipe ts c
  | pipeBar {ts us : List Tok} {c d : Cmd} (he : Derives .exec ts c) (hp : Derives .pipe us d) :
      Derives .pipe (ts ++ .op .bar :: us) (.pipe c d)
  | block {ts : List Tok} {c : Cmd} (hl : Derives .line ts c) (rs : List Redir) :
      Derives .exec (.op .lparen :: ts ++ .op .rparen :: redirToks rs) (redircmds c rs)
  | simple (rs : List Redir) (args : List (Span × List Redir)) (h : args.length < maxArgs) :
      Derives .exec (redirToks rs ++ args.flatMap fun a => .word a.1 :: redirToks a.2)
        (redircmds (.exec (args.map Prod.fst)) (rs ++ args.flatMap Prod.snd))

end MiniOS.Sh
