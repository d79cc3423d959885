import FogOS.Shell.Crash

/-!
# The parser of sh

The parsing functions of `user/sh.c`. A line is a list of bytes, the last of which is NUL, and a
pointer into it is an offset; an access beyond the end is wild. The functions above `gettoken` and
`peek` know the line through these two only, and so they are written for any scanner. Memory for the
nodes of the tree is taken to be there.
-/

namespace FogOS.Shell.Sh

open Kernel

/-! ### Trees -/

/-- What `panic` and the messages before it say. -/
inductive Complaint
  | syntaxError
  | missingFile
  | parseblock
  | missingParen
  | tooManyArgs
  deriving DecidableEq, Repr

/-- How a parse ends without a tree: `panic` is called, or the stack, which is as deep as `fuel`, is
used up, or an access is wild. -/
inductive Failure
  | panic (c : Complaint)
  | depth
  | wild
  deriving DecidableEq, Repr

/-- What the characters that `gettoken` returns stand for: `0`, `'a'`, `'+'` and the symbols. -/
inductive Kind
  | eof
  | word
  | append
  | pipe
  | lparen
  | rparen
  | semi
  | amp
  | lt
  | gt
  deriving DecidableEq, Repr

/-- The result of `gettoken`, with `*q` and `*eq`. -/
structure Token where
  kind : Kind
  q : Nat
  eq : Nat
  deriving DecidableEq, Repr

/-- The fields of a `redircmd` besides `cmd`. -/
structure Redir where
  file : Nat
  efile : Nat
  mode : Nat
  fd : Nat
  deriving DecidableEq, Repr

/-- `struct cmd`. The arrays `argv` and `eargv` end with a null pointer, which is left out. -/
inductive Cmd
  | exec (args : List (Nat × Nat))
  | redir (cmd : Cmd) (r : Redir)
  | pipe (left right : Cmd)
  | list (left right : Cmd)
  | back (cmd : Cmd)
  deriving DecidableEq, Repr

def maxargs : Nat := 16

def oRdonly : Nat := 0x000
def oWronly : Nat := 0x001
def oCreate : Nat := 0x200
def oTrunc : Nat := 0x400

/-! ### Tokens -/

/-- `" \t\r\n\v"`. -/
def whitespace : Str := [32, 9, 13, 10, 11]

/-- `"<|>&;()"`. -/
def symbols : Str := [60, 124, 62, 38, 59, 40, 41]

/-- Whether `strchr(s, c)` is not null, where `s` is given by the bytes before its NUL. -/
def strchr (s : Str) (c : UInt8) : Bool := s.contains c

def load (buf : Str) (s : Nat) : Except Failure UInt8 :=
  match buf[s]? with
  | some c => pure c
  | none => throw .wild

/-- `while(s < es && p(*s)) s++`, in at most `k` rounds. -/
def skipLoop (buf : Str) (es : Nat) (p : UInt8 → Bool) : Nat → Nat → Except Failure Nat
  | 0, s => pure s
  | k + 1, s =>
    if s < es then do
      let c ← load buf s
      if p c then skipLoop buf es p k (s + 1) else pure s
    else pure s

def skip (buf : Str) (es : Nat) (p : UInt8 → Bool) (s : Nat) : Except Failure Nat :=
  skipLoop buf es p (es - s) s

/-- The symbols that are tokens by themselves. -/
def single (c : UInt8) : Option Kind :=
  if c = 124 then some .pipe
  else if c = 40 then some .lparen
  else if c = 41 then some .rparen
  else if c = 59 then some .semi
  else if c = 38 then some .amp
  else if c = 60 then some .lt
  else none

/-- The `switch` of `gettoken`, on the byte `c` at `s`: the token and its end. -/
def classify (buf : Str) (es s : Nat) (c : UInt8) : Except Failure (Kind × Nat) :=
  if c = 0 then pure (.eof, s)
  else
    match single c with
    | some kind => pure (kind, s + 1)
    | none =>
      if c = 62 then do
        let d ← load buf (s + 1)
        if d = 62 then pure (.append, s + 2) else pure (.gt, s + 1)
      else do
        let eq ← skip buf es (fun c => !strchr whitespace c && !strchr symbols c) s
        pure (.word, eq)

/-- `gettoken(&s, es, &q, &eq)`: the token and the new value of `s`. -/
def gettoken (buf : Str) (es s : Nat) : Except Failure (Token × Nat) := do
  let s ← skip buf es (strchr whitespace) s
  let c ← load buf s
  let (kind, eq) ← classify buf es s c
  let next ← skip buf es (strchr whitespace) eq
  pure (⟨kind, s, eq⟩, next)

/-- `peek(&s, es, toks)`: the result and the new value of `s`. -/
def peek (buf : Str) (es : Nat) (toks : Str) (s : Nat) : Except Failure (Bool × Nat) := do
  let s ← skip buf es (strchr whitespace) s
  let c ← load buf s
  pure (c ≠ 0 && strchr toks c, s)

/-- What the parser needs to know of a line. -/
structure Scanner (σ : Type) where
  gettoken : σ → Except Failure (Token × σ)
  peek : Str → σ → Except Failure (Bool × σ)

/-- The line in memory, up to `es`. -/
def scanner (buf : Str) (es : Nat) : Scanner Nat := ⟨gettoken buf es, peek buf es⟩

/-! ### Commands -/

/-- `redircmd(cmd, q, eq, …)` for a redirection that begins with `tok`, without `cmd`. -/
def redircmd (tok : Kind) (file efile : Nat) : Option Redir :=
  match tok with
  | .lt => some ⟨file, efile, oRdonly, 0⟩
  | .gt => some ⟨file, efile, oWronly ||| oCreate ||| oTrunc, 1⟩
  | .append => some ⟨file, efile, oWronly ||| oCreate, 1⟩
  | _ => none

/-- The nodes of the redirections of a command; the last one is the outermost. -/
def wrap (cmd : Cmd) (redirs : List Redir) : Cmd := redirs.foldl .redir cmd

section Parser

variable {σ : Type} (S : Scanner σ)

/-- `parseredirs`, in at most `k` rounds. The `execcmd` node gets its arguments after it has been
wrapped, so the redirections are collected here and put around it in the end. -/
def parseredirs : Nat → List Redir → σ → Except Failure (List Redir × σ)
  | 0, _, _ => throw .depth
  | k + 1, redirs, s => do
    let (more, s) ← S.peek [60, 62] s
    if more then
      let (tok, s) ← S.gettoken s
      let (file, s) ← S.gettoken s
      if file.kind ≠ .word then throw (.panic .missingFile)
      else parseredirs k (redirs ++ (redircmd tok.kind file.q file.eq).toList) s
    else pure (redirs, s)

/-- The loop of `parseexec` over the arguments. -/
def parseargs : Nat → List (Nat × Nat) → List Redir → σ →
    Except Failure ((List (Nat × Nat) × List Redir) × σ)
  | 0, _, _, _ => throw .depth
  | k + 1, args, redirs, s => do
    let (done, s) ← S.peek [124, 41, 38, 59] s
    if done then pure ((args, redirs), s)
    else
      let (tok, s) ← S.gettoken s
      if tok.kind = .eof then pure ((args, redirs), s)
      else if tok.kind ≠ .word then throw (.panic .syntaxError)
      else
        let args := args ++ [(tok.q, tok.eq)]
        if args.length ≥ maxargs then throw (.panic .tooManyArgs)
        else
          let (redirs, s) ← parseredirs S k redirs s
          parseargs k args redirs s

/-- The loop of `parseline` over the ampersands. -/
def parsebacks : Nat → Cmd → σ → Except Failure (Cmd × σ)
  | 0, _, _ => throw .depth
  | k + 1, cmd, s => do
    let (more, s) ← S.peek [38] s
    if more then
      let (_, s) ← S.gettoken s
      parsebacks k (.back cmd) s
    else pure (cmd, s)

mutual

def parseline : Nat → σ → Except Failure (Cmd × σ)
  | 0, _ => throw .depth
  | fuel + 1, s => do
    let (cmd, s) ← parsepipe fuel s
    let (cmd, s) ← parsebacks S fuel cmd s
    let (more, s) ← S.peek [59] s
    if more then
      let (_, s) ← S.gettoken s
      let (right, s) ← parseline fuel s
      pure (.list cmd right, s)
    else pure (cmd, s)

def parsepipe : Nat → σ → Except Failure (Cmd × σ)
  | 0, _ => throw .depth
  | fuel + 1, s => do
    let (cmd, s) ← parseexec fuel s
    let (more, s) ← S.peek [124] s
    if more then
      let (_, s) ← S.gettoken s
      let (right, s) ← parsepipe fuel s
      pure (.pipe cmd right, s)
    else pure (cmd, s)

def parseblock : Nat → σ → Except Failure (Cmd × σ)
  | 0, _ => throw .depth
  | fuel + 1, s => do
    let (opens, s) ← S.peek [40] s
    if !opens then throw (.panic .parseblock)
    else
      let (_, s) ← S.gettoken s
      let (cmd, s) ← parseline fuel s
      let (closes, s) ← S.peek [41] s
      if !closes then throw (.panic .missingParen)
      else
        let (_, s) ← S.gettoken s
        let (redirs, s) ← parseredirs S fuel [] s
        pure (wrap cmd redirs, s)

def parseexec : Nat → σ → Except Failure (Cmd × σ)
  | 0, _ => throw .depth
  | fuel + 1, s => do
    let (opens, s) ← S.peek [40] s
    if opens then parseblock fuel s
    else
      let (redirs, s) ← parseredirs S fuel [] s
      let ((args, redirs), s) ← parseargs S fuel [] redirs s
      pure (wrap (.exec args) redirs, s)

end

end Parser

def store (buf : Str) (i : Nat) : Except Failure Str :=
  if i < buf.length then pure (buf.set i 0) else throw .wild

def nulterminate : Cmd → Str → Except Failure Str
  | .exec args, buf => args.foldlM (fun buf arg => store buf arg.2) buf
  | .redir cmd r, buf => do
    let buf ← nulterminate cmd buf
    store buf r.efile
  | .pipe left right, buf => do
    let buf ← nulterminate left buf
    nulterminate right buf
  | .list left right, buf => do
    let buf ← nulterminate left buf
    nulterminate right buf
  | .back cmd, buf => nulterminate cmd buf

/-- `parsecmd(s)` for the line in `buf`: the tree, and the line then. -/
def parsecmd (fuel : Nat) (buf : Str) : Except Failure (Cmd × Str) := do
  let es := (cstr buf 0).length
  let (cmd, s) ← parseline (scanner buf es) fuel 0
  let (_, s) ← peek buf es [] s
  if s ≠ es then throw (.panic .syntaxError)
  else
    let buf ← nulterminate cmd buf
    pure (cmd, buf)

end FogOS.Shell.Sh
