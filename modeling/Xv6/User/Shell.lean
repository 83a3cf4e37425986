import Xv6.User.Grammar

/-!
# Shell — the parser of `sh.c`

`gettoken` and `peek` read the line in place and move a pointer into it; a word is kept as the pair of pointers
`q` and `eq` to its first character and to the one after its last.  `nulterminate` writes over the line.

Pointers are offsets into the buffer.  The functions call each other without a bound in sight, so they are given
a number of steps, and end as `unfinished` when it is used up.
-/

namespace Xv6.Shell

/-- A word of the line: `q` and `eq`. -/
abbrev Span := ℕ × ℕ

def nul : Char := '\x00'

def char (b : List Char) (i : ℕ) : Char :=
  b.getD i nul

def strlen (b : List Char) : ℕ :=
  (b.takeWhile fun c => decide (c ≠ nul)).length

/-- The string that starts at `i`. -/
def cstring (b : List Char) (i : ℕ) : List Char :=
  (b.drop i).takeWhile fun c => decide (c ≠ nul)

def whitespace : List Char := [' ', '\t', '\r', '\n', '\x0b']

def symbols : List Char := ['<', '|', '>', '&', ';', '(', ')']

inductive Panic
  /-- "missing file for redirection" -/
  | missingFile
  | parseblock
  /-- "syntax - missing )" -/
  | missingParen
  /-- "syntax" -/
  | syntaxError
  | tooManyArgs
  /-- "leftovers: " and the rest of the line come before the same message. -/
  | leftovers (rest : List Char)
  deriving DecidableEq

inductive Stop
  | panic (p : Panic)
  | unfinished
  deriving DecidableEq

variable (b : List Char) (es : ℕ)

/-! ## Tokens -/

/-- `while(s + n > s && p(*s)) s++` -/
def skip (p : Char → Bool) : ℕ → ℕ → ℕ
  | 0, s => s
  | n + 1, s => if p (char b s) then skip p n (s + 1) else s

def skipWhite (s : ℕ) : ℕ :=
  skip b (fun c => whitespace.contains c) (es - s) s

def skipWord (s : ℕ) : ℕ :=
  skip b (fun c => !whitespace.contains c && !symbols.contains c) (es - s) s

/-- The `switch` of `gettoken`: the token at `q` and where it ends. -/
def scan (q : ℕ) : Option (Token Span) × ℕ :=
  match char b q with
  | '\x00' => (none, q)
  | '|' => (some .bar, q + 1)
  | '(' => (some .lparen, q + 1)
  | ')' => (some .rparen, q + 1)
  | ';' => (some .semi, q + 1)
  | '&' => (some .amp, q + 1)
  | '<' => (some .lt, q + 1)
  | '>' => if char b (q + 1) = '>' then (some .gtgt, q + 2) else (some .gt, q + 1)
  | _ => (some (.word (q, skipWord b es q)), skipWord b es q)

/-- The token, with `q` and `eq` if it is a word, and the new `*ps`. -/
def gettoken (s : ℕ) : Option (Token Span) × ℕ :=
  let t := scan b es (skipWhite b es s)
  (t.1, skipWhite b es t.2)

/-- Whether one of `toks` comes next, and the new `*ps`. -/
def peek (s : ℕ) (toks : List Char) : Bool × ℕ :=
  let q := skipWhite b es s
  (decide (char b q ≠ nul) && toks.contains (char b q), q)

/-! ## Commands -/

namespace Cmd

/-- `argv[argc]` of the `execcmd` under the redirections is set. -/
def addArg : Cmd Span → Span → Cmd Span
  | .exec argv, w => .exec (argv ++ [w])
  | .redir cmd file mode fd, w => .redir (cmd.addArg w) file mode fd
  | .pipe left right, _ => .pipe left right
  | .list left right, _ => .list left right
  | .back cmd, _ => .back cmd

end Cmd

/-- The `switch` of `parseredirs`. -/
def redircmd (tok : Option (Token Span)) (cmd : Cmd Span) (w : Span) : Cmd Span :=
  match tok with
  | some .lt => .redir cmd w oRdonly 0
  | some .gt => .redir cmd w (oWronly ||| oCreate) 1
  | some .gtgt => .redir cmd w (oWronly ||| oCreate) 1
  | _ => cmd

def parseredirs : ℕ → Cmd Span → ℕ → Except Stop (Cmd Span × ℕ)
  | 0, _, _ => .error .unfinished
  | n + 1, cmd, s =>
    let more := peek b es s ['<', '>']
    if more.1 then
      let tok := gettoken b es more.2
      let file := gettoken b es tok.2
      match file.1 with
      | some (.word w) => parseredirs n (redircmd tok.1 cmd w) file.2
      | _ => .error (.panic .missingFile)
    else .ok (cmd, more.2)

def parseargs : ℕ → Cmd Span → ℕ → ℕ → Except Stop (Cmd Span × ℕ)
  | 0, _, _, _ => .error .unfinished
  | n + 1, ret, argc, s =>
    let stop := peek b es s ['|', ')', '&', ';']
    if stop.1 then .ok (ret, stop.2)
    else
      let tok := gettoken b es stop.2
      match tok.1 with
      | none => .ok (ret, tok.2)
      | some (.word w) =>
        if argc + 1 ≥ maxargs then .error (.panic .tooManyArgs)
        else do
          let r ← parseredirs b es n (ret.addArg w) tok.2
          parseargs n r.1 (argc + 1) r.2
      | some _ => .error (.panic .syntaxError)

def parseback : ℕ → Cmd Span → ℕ → Except Stop (Cmd Span × ℕ)
  | 0, _, _ => .error .unfinished
  | n + 1, cmd, s =>
    let more := peek b es s ['&']
    if more.1 then parseback n (.back cmd) (gettoken b es more.2).2
    else .ok (cmd, more.2)

mutual

def parseline : ℕ → ℕ → Except Stop (Cmd Span × ℕ)
  | 0, _ => .error .unfinished
  | n + 1, s => do
      let left ← parsepipe n s
      let cmd ← parseback b es n left.1 left.2
      let more := peek b es cmd.2 [';']
      if more.1 then do
        let right ← parseline n (gettoken b es more.2).2
        pure (.list cmd.1 right.1, right.2)
      else pure (cmd.1, more.2)

def parsepipe : ℕ → ℕ → Except Stop (Cmd Span × ℕ)
  | 0, _ => .error .unfinished
  | n + 1, s => do
      let cmd ← parseexec n s
      let more := peek b es cmd.2 ['|']
      if more.1 then do
        let right ← parsepipe n (gettoken b es more.2).2
        pure (.pipe cmd.1 right.1, right.2)
      else pure (cmd.1, more.2)

def parseblock : ℕ → ℕ → Except Stop (Cmd Span × ℕ)
  | 0, _ => .error .unfinished
  | n + 1, s =>
    let lparen := peek b es s ['(']
    if lparen.1 then do
      let cmd ← parseline n (gettoken b es lparen.2).2
      let rparen := peek b es cmd.2 [')']
      if rparen.1 then parseredirs b es n cmd.1 (gettoken b es rparen.2).2
      else .error (.panic .missingParen)
    else .error (.panic .parseblock)

def parseexec : ℕ → ℕ → Except Stop (Cmd Span × ℕ)
  | 0, _ => .error .unfinished
  | n + 1, s =>
    let lparen := peek b es s ['(']
    if lparen.1 then parseblock n lparen.2
    else do
      let ret ← parseredirs b es n (.exec []) lparen.2
      parseargs b es n ret.1 0 ret.2

end

/-- The words' ends are overwritten in the buffer. -/
def nulterminate (b : List Char) : Cmd Span → List Char
  | .exec argv => argv.foldl (fun b w => b.set w.2 nul) b
  | .redir cmd file _ _ => (nulterminate b cmd).set file.2 nul
  | .pipe left right => nulterminate (nulterminate b left) right
  | .list left right => nulterminate (nulterminate b left) right
  | .back cmd => nulterminate b cmd

/-- The command, and the buffer that it points into. -/
def parsecmd (n : ℕ) : Except Stop (Cmd Span × List Char) := do
  let es := strlen b
  let cmd ← parseline b es n 0
  let last := peek b es cmd.2 []
  if last.2 ≠ es then .error (.panic (.leftovers (cstring b last.2)))
  else pure (cmd.1, nulterminate b cmd.1)

end Xv6.Shell
