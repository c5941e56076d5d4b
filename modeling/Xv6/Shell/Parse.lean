/-
# `Xv6.Shell.Parse` — the parser of `user/sh.c`

`gettoken`, `peek`, the recursive descent from `parsecmd` down, and `nulterminate`.

A pointer into the line is modelled by what it points at, the rest of the line; its
offset is the length of the line less the length of that rest, and `es` is the empty
rest.  The tree that the descent builds holds pairs of such pointers.  `nulterminate`
then writes a NUL at the end of each word, and what the callers of `parsecmd` see is
the tree with the strings that its `q` pointers now stand for.

`parseexec` fills in the `struct execcmd` at the bottom of `ret` through its second
name `cmd`, while `parseredirs` puts nodes above it: `Cmd.setArg`.  A node of the tree
has the entries of `argv` before the first null pointer.

The recursion and the loops count down a fuel; `Err.fuel` is what is left when it has
run out, and every other error is an exit of the shell's child.
-/
import Xv6.Lib.Text

namespace Xv6.Shell

abbrev MAXARGS : Nat := 10

abbrev O_RDONLY : Nat := 0x000
abbrev O_WRONLY : Nat := 0x001
abbrev O_CREATE : Nat := 0x200
abbrev O_TRUNC : Nat := 0x400

/-- The three calls of `redircmd`. -/
inductive Redirection
  | input
  | output
  | append
deriving DecidableEq, Repr

def Redirection.mode : Redirection → Nat
  | .input => O_RDONLY
  | .output => O_WRONLY ||| O_CREATE ||| O_TRUNC
  | .append => O_WRONLY ||| O_CREATE

def Redirection.fd : Redirection → Nat
  | .input => 0
  | .output => 1
  | .append => 1

/-- `struct cmd`, with words of type `α`. -/
inductive Cmd (α : Type)
  | exec (argv : List α)
  | redir (cmd : Cmd α) (file : α) (r : Redirection)
  | pipe (left right : Cmd α)
  | list (left right : Cmd α)
  | back (cmd : Cmd α)
deriving DecidableEq, Repr

namespace Cmd

variable {α β : Type}

def map (f : α → β) : Cmd α → Cmd β
  | exec argv => exec (argv.map f)
  | redir cmd file r => redir (cmd.map f) (f file) r
  | pipe left right => pipe (left.map f) (right.map f)
  | list left right => list (left.map f) (right.map f)
  | back cmd => back (cmd.map f)

/-- All words, in the order in which `nulterminate` visits them. -/
def words : Cmd α → List α
  | exec argv => argv
  | redir cmd file _ => cmd.words ++ [file]
  | pipe left right => left.words ++ right.words
  | list left right => left.words ++ right.words
  | back cmd => cmd.words

/-- The array `argv` of a `struct execcmd`, which `execcmd` has set to zero. -/
def argvSlots (argv : List α) : List (Option α) :=
  argv.map some ++ List.replicate (MAXARGS - argv.length) none

/-- The entries of the array before the first null pointer. -/
def argsOf : List (Option α) → List α
  | some w :: slots => w :: argsOf slots
  | _ => []

/-- `cmd->argv[i] = w` for the `struct execcmd` at the bottom. -/
def setArg (i : Nat) (w : Option α) : Cmd α → Cmd α
  | exec argv => exec (argsOf ((argvSlots argv).set i w))
  | redir cmd file r => redir (cmd.setArg i w) file r
  | cmd => cmd

end Cmd

/-! ## Tokens -/

def whitespace : List Char := [' ', '\t', '\r', '\n', '\x0b']

def symbols : List Char := ['<', '|', '>', '&', ';', '(', ')']

def skip (s : List Char) : List Char := s.dropWhile (· ∈ whitespace)

def wordChar (c : Char) : Bool := c ∉ whitespace && c ∉ symbols

/-- The pointers `q` and `eq` that `gettoken` hands out. -/
structure Span where
  q : List Char
  eq : List Char

def Span.text (w : Span) : List Char := w.q.take (w.q.length - w.eq.length)

def gettoken (s : List Char) : Char × Span × List Char :=
  let q := skip s
  match q with
  | [] => (NUL, ⟨q, []⟩, [])
  | c :: s =>
    if c ∈ ['|', '(', ')', ';', '&', '<'] then (c, ⟨q, s⟩, skip s)
    else if c = '>' then
      if s.head? = some '>' then ('+', ⟨q, s.tail⟩, skip s.tail) else (c, ⟨q, s⟩, skip s)
    else
      let s := q.dropWhile wordChar
      ('a', ⟨q, s⟩, skip s)

def peek (s : List Char) (toks : List Char) : Bool × List Char :=
  let s := skip s
  (s.head?.any (· ∈ toks), s)

/-! ## The descent -/

inductive Err
  | fuel
  | panic (msg : String)
  /-- `panic("syntax")` after the message with what was left over. -/
  | leftovers (s : List Char)
deriving DecidableEq, Repr

def parseredirs : Nat → Cmd Span → List Char → Except Err (Cmd Span × List Char)
  | 0, _, _ => .error .fuel
  | n + 1, cmd, s =>
    let (more, s) := peek s ['<', '>']
    if more then
      let (tok, _, s) := gettoken s
      let (ret, file, s) := gettoken s
      if ret ≠ 'a' then .error (.panic "missing file for redirection")
      else if tok = '<' then parseredirs n (.redir cmd file .input) s
      else if tok = '>' then parseredirs n (.redir cmd file .output) s
      else if tok = '+' then parseredirs n (.redir cmd file .append) s
      else parseredirs n cmd s
    else .ok (cmd, s)

/-- The loop of `parseexec`. -/
def parseargs : Nat → Nat → Cmd Span → List Char → Except Err (Cmd Span × List Char)
  | 0, _, _, _ => .error .fuel
  | n + 1, argc, ret, s =>
    let (stop, s) := peek s ['|', ')', '&', ';']
    if stop then .ok (ret.setArg argc none, s)
    else
      let (tok, w, s) := gettoken s
      if tok = NUL then .ok (ret.setArg argc none, s)
      else if tok ≠ 'a' then .error (.panic "syntax")
      else if MAXARGS ≤ argc + 1 then .error (.panic "too many args")
      else do
        let (ret, s) ← parseredirs n (ret.setArg argc (some w)) s
        parseargs n (argc + 1) ret s

/-- The loop of `parseline`. -/
def parsebacks : Nat → Cmd Span → List Char → Except Err (Cmd Span × List Char)
  | 0, _, _ => .error .fuel
  | n + 1, cmd, s =>
    let (more, s) := peek s ['&']
    if more then
      let (_, _, s) := gettoken s
      parsebacks n (.back cmd) s
    else .ok (cmd, s)

mutual

def parseline : Nat → List Char → Except Err (Cmd Span × List Char)
  | 0, _ => .error .fuel
  | n + 1, s => do
    let (cmd, s) ← parsepipe n s
    let (cmd, s) ← parsebacks n cmd s
    let (more, s) := peek s [';']
    if more then
      let (_, _, s) := gettoken s
      let (right, s) ← parseline n s
      .ok (.list cmd right, s)
    else .ok (cmd, s)

def parsepipe : Nat → List Char → Except Err (Cmd Span × List Char)
  | 0, _ => .error .fuel
  | n + 1, s => do
    let (cmd, s) ← parseexec n s
    let (more, s) := peek s ['|']
    if more then
      let (_, _, s) := gettoken s
      let (right, s) ← parsepipe n s
      .ok (.pipe cmd right, s)
    else .ok (cmd, s)

def parseblock : Nat → List Char → Except Err (Cmd Span × List Char)
  | 0, _ => .error .fuel
  | n + 1, s =>
    let (opens, s) := peek s ['(']
    if opens then do
      let (_, _, s) := gettoken s
      let (cmd, s) ← parseline n s
      let (closes, s) := peek s [')']
      if closes then
        let (_, _, s) := gettoken s
        parseredirs n cmd s
      else .error (.panic "syntax - missing )")
    else .error (.panic "parseblock")

def parseexec : Nat → List Char → Except Err (Cmd Span × List Char)
  | 0, _ => .error .fuel
  | n + 1, s =>
    let (opens, s) := peek s ['(']
    if opens then parseblock n s
    else do
      let (ret, s) ← parseredirs n (.exec []) s
      parseargs n 0 ret s

end

/-! ## The whole line -/

/-- The memory that holds a line of length `len`, after the writes. -/
def nulterminate (len : Nat) : Cmd Span → List Char → List Char
  | .exec argv, mem => argv.foldl (fun mem w => mem.set (len - w.eq.length) NUL) mem
  | .redir cmd file _, mem => (nulterminate len cmd mem).set (len - file.eq.length) NUL
  | .pipe left right, mem => nulterminate len right (nulterminate len left mem)
  | .list left right, mem => nulterminate len right (nulterminate len left mem)
  | .back cmd, mem => nulterminate len cmd mem

def parsecmd (s : List Char) : Except Err (Cmd (List Char)) := do
  let (cmd, es) ← parseline (4 * s.length + 4) s
  let (_, es) := peek es []
  if es ≠ [] then .error (.leftovers es)
  else
    let mem := nulterminate s.length cmd (s ++ [NUL])
    .ok (cmd.map fun w => cstr (mem.drop (s.length - w.q.length)))

end Xv6.Shell
