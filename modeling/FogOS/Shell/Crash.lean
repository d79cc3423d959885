import Mathlib.Data.List.DropRight
import FogOS.Kernel.Basic

/-!
# The shell

`user/crash.c`: reading a line from a script or from the console, cutting it into tokens, the
history, and the main loop. A string is the list of its bytes. `buf` is given by its bytes before
the terminating NUL; tokenizing works on the array with its NUL, where an access beyond the end is
wild, and writes further NULs into it. Memory for copies of strings is taken
to be there, and what a started program does is not looked at.
-/

namespace FogOS.Shell

open Kernel

/-- Bytes of a string. -/
abbrev Str := List UInt8

/-- The string that a pointer to the `p`-th byte of a buffer stands for. -/
def cstr (buf : Str) (p : Nat) : Str := (buf.drop p).takeWhile (· ≠ 0)

/-! ### Tokens -/

/-- The delimiters `" \t\n"`. -/
def delims : Str := [32, 9, 10]

/-- Compare the bytes of `chars` with `c`, up to the first that is equal to it or that is NUL. -/
def scan (c : UInt8) : Str → Except Stop Bool
  | [] => throw .wild
  | d :: chars => if d = c then pure true else if d = 0 then pure false else scan c chars

/-- Length of the part of the string that has bytes of `chars` only. -/
def strspn (chars : Str) : Str → Except Stop Nat
  | [] => throw .wild
  | c :: str =>
    if c = 0 then pure 0
    else do
      if ← scan c chars then return (← strspn chars str) + 1
      else pure 0

/-- Length of the part of the string that has no byte of `chars`. The terminating NUL is looked up in
`chars` too. -/
def strcspn (chars : Str) : Str → Except Stop Nat
  | [] => throw .wild
  | c :: str => do
    if ← scan c chars then pure 0
    else return (← strcspn chars str) + 1

/-- The pointer that is returned, `*str_ptr` and the buffer. A null pointer is `none`. -/
def nextToken (delim buf : Str) : Option Nat → Except Stop (Option Nat × Option Nat × Str)
  | none => pure (none, none, buf)
  | some strPtr => do
    let tokStart ← strspn delim (buf.drop strPtr)
    let tokEnd ← strcspn delim (buf.drop (strPtr + tokStart))
    if tokEnd = 0 then pure (none, none, buf)
    else
      let currentPtr := strPtr + tokStart
      let strPtr := strPtr + (tokStart + tokEnd)
      match buf[strPtr]? with
      | none => throw .wild
      | some c =>
        if c = 0 then pure (some currentPtr, none, buf)
        else pure (some currentPtr, some (strPtr + 1), buf.set strPtr 0)

/-- The loop that fills `tokens`, an array of 128 pointers; `fuel` bounds the number of rounds.
`next_token` gets the arrays with their terminating NULs. -/
def tokenizeLoop : Nat → Str → Option Nat → List Nat → Except Stop (List Nat × Str)
  | 0, _, _, _ => throw .sleep
  | fuel + 1, buf, nextTok, tokens => do
    match ← nextToken (delims ++ [0]) (buf ++ [0]) nextTok with
    | (none, _, buf) => if tokens.length < 128 then pure (tokens, buf.dropLast) else throw .wild
    | (some currTok, nextTok, buf) =>
      if tokens.length < 128 then tokenizeLoop fuel buf.dropLast nextTok (tokens ++ [currTok])
      else throw .wild

/-! ### One line -/

/-- `' '` or `'\t'`. -/
def isBlank (c : UInt8) : Bool := c == 32 || c == 9

/-- Cut at the first `'#'`. -/
def cutComment (buf : Str) : Str := buf.takeWhile (· ≠ 35)

/-- Trailing blanks are overwritten. -/
def trimEnd (buf : Str) : Str := buf.rdropWhile isBlank

/-- From a line in `buf` to the text that goes into the history and the tokens; `none` if there is
no command. -/
def parseLine (buf : Str) : Except Stop (Option (Str × List Str)) :=
  if buf.getD 0 0 = 0 then pure none
  else if buf.getD 0 0 = 35 then pure none
  else
    let buf := trimEnd (cutComment buf)
    if buf.getD 0 0 = 0 then pure none
    else do
      let (tokens, buf) ← tokenizeLoop (buf.length + 1) buf (some 0) []
      if tokens.length = 0 then pure none
      else pure (some (cstr buf 0, tokens.map (cstr buf)))

/-! ### History -/

/-- `MAX_HISTORY`. -/
def maxHistory : Nat := 100

/-- `history`, `history_count` and `cmd_num`. -/
structure State where
  history : Nat → Option Str
  historyCount : Int
  cmdNum : Int

namespace State

/-- Store a command. Below zero the index is outside the array. -/
def addToHistory (s : State) (cmd : Str) (cmdNum : Int) : Except Stop State :=
  let index := (cmdNum - 1).tmod maxHistory
  if index < 0 then throw .wild
  else pure { s with history := Function.update s.history index.toNat (some cmd) }

/-- The command with the number `num`. -/
def getHistoryByNum (s : State) (num : Int) : Option Str :=
  if num ≤ 0 ∨ s.historyCount < num then none
  else s.history ((num - 1).tmod maxHistory).toNat

def getLastHistory (s : State) : Option Str :=
  if s.historyCount = 0 then none else s.getHistoryByNum s.historyCount

/-- Compare the string with `pre`, byte by byte to the end of `pre`. -/
def startsWith : Str → Str → Bool
  | _, [] => true
  | [], _ :: _ => false
  | c :: text, p :: pre => if c ≠ p then false else startsWith text pre

/-- The loop of `get_history_by_prefix`, from `i` down. -/
def byPrefixLoop (s : State) (pre : Str) : Nat → Option Str
  | 0 => none
  | i + 1 =>
    match s.history (i % maxHistory) with
    | none => s.byPrefixLoop pre i
    | some cmd => if startsWith cmd pre then some cmd else s.byPrefixLoop pre i

def getHistoryByPrefix (s : State) (pre : Str) : Option Str :=
  s.byPrefixLoop pre s.historyCount.toNat

/-- The lines that `print_history` prints: number and text. -/
def printHistory (s : State) : List (Int × Str) :=
  let start := if (maxHistory : Int) < s.historyCount then s.historyCount - maxHistory + 1 else 1
  (List.range (s.historyCount + 1 - start).toNat).filterMap fun (j : Nat) =>
    (s.history ((start + j - 1).tmod maxHistory).toNat).map fun cmd => (start + j, cmd)

/-- The text of an accepted command is stored under the next number. -/
def record (s : State) (cmd : Str) : Except Stop State := do
  let s ← s.addToHistory cmd s.cmdNum
  pure { s with historyCount := s.cmdNum, cmdNum := toInt32 (s.cmdNum + 1) }

/-- When the shell starts. -/
def initial : State where
  history := fun _ => none
  historyCount := 0
  cmdNum := 1

end State

/-! ### Reading -/

/-- The loop that reads a line of a script, with room for `n` more bytes. -/
def readLoop : Nat → Str → Str × Str
  | 0, input => ([], input)
  | _ + 1, [] => ([], [])
  | n + 1, c :: input =>
    if c = 10 then ([], input)
    else
      let (buf, rest) := readLoop n input
      (c :: buf, rest)

/-- A line of the script and the rest of it; `none` at the end of the file. -/
def readLine (input : Str) : Option (Str × Str) :=
  match input with
  | [] => none
  | _ => some (readLoop 255 input)

/-- The loop of `gets`, with room for `n` more bytes. -/
def getsLoop : Nat → Str → Str × Str
  | 0, input => ([], input)
  | _ + 1, [] => ([], [])
  | n + 1, c :: input =>
    if c = 10 ∨ c = 13 then ([c], input)
    else
      let (buf, rest) := getsLoop n input
      (c :: buf, rest)

/-- A line from the console without its newline, and what has not been read; `none` as long as
nothing is typed. -/
def getLine (input : Str) : Option (Str × Str) :=
  match input with
  | [] => none
  | _ =>
    let (buf, rest) := getsLoop 255 input
    let buf := cstr buf 0
    some (if buf.getLast? = some 10 then buf.dropLast else buf, rest)

/-! ### The main loop -/

/-- `"exit"`. -/
def exitWord : Str := [101, 120, 105, 116]

/-- One round of the main loop, once the line has been read: the new state, and the tokens that go
to `execute_builtin`. -/
def oneLine (s : State) (buf : Str) : Except Stop (State × Option (List Str)) := do
  match ← parseLine buf with
  | none => pure (s, none)
  | some (text, tokens) => do
    let s ← s.record text
    pure (s, some tokens)

/-- The commands that are run, each with the offset at which the read of its line began. The loop
ends at `exit` or when there is nothing to read; `fuel` bounds the number of rounds. -/
def mainLoop (read : Str → Option (Str × Str)) :
    Nat → State → Nat → Str → Except Stop (State × List (Nat × List Str))
  | 0, _, _, _ => throw .sleep
  | fuel + 1, s, off, input =>
    match read input with
    | none => pure (s, [])
    | some (buf, rest) => do
      let off' := off + (input.length - rest.length)
      match ← oneLine s buf with
      | (s, none) => mainLoop read fuel s off' rest
      | (s, some tokens) =>
        if tokens.head? = some exitWord then pure (s, [(off, tokens)])
        else do
          let (s, cmds) ← mainLoop read fuel s off' rest
          pure (s, (off, tokens) :: cmds)

/-- A script is run. Every round reads a byte at least. -/
def runScript (content : Str) : Except Stop (State × List (Nat × List Str)) :=
  mainLoop readLine (content.length + 1) .initial 0 content

/-- The commands typed at the console are run. -/
def runConsole (input : Str) : Except Stop (State × List (Nat × List Str)) :=
  mainLoop getLine (input.length + 1) .initial 0 input

end FogOS.Shell
