/-
# `Xv6.Console.Machine` — the input side of `kernel/console.c`

The ring `cons.buf` with its three counters, the interrupt handler `consoleintr`,
`consoleread` and `console_set_rawmode`.  All three hold `cons.lock` from beginning
to end, except that `consoleread` gives it up while it sleeps; so a step of the
machine is one interrupt, one mode switch, or one stretch of a `consoleread` up to
its next `sleep` or its return.  A sleeping reader may run again at any time, as
after a `wakeup` for somebody else's character.

Echoing (`consputc`) is left out, and so is `procdump`.

Three fields are history: `accepted`, every character that was stored and not erased
again, in order; `taken`, every character that was read from the ring and by whom;
and `returned`, what the calls of each process have returned.
-/
import Xv6.Lib.Ring
import Xv6.Lib.Run
import Xv6.Params

namespace Xv6.Console

open Machine

abbrev INPUT_BUF_SIZE : Nat := 128

scoped instance : NeZero INPUT_BUF_SIZE := ⟨by decide⟩

/-- `C(x)`, Control-x. -/
def ctrl (x : Char) : UInt8 := x.toNat.toUInt8 - '@'.toNat.toUInt8

def newline : UInt8 := '\n'.toNat.toUInt8
def carriageReturn : UInt8 := '\r'.toNat.toUInt8
def delete : UInt8 := 0x7f

structure Cons where
  buf : Fin INPUT_BUF_SIZE → UInt8
  r : UInt32
  w : UInt32
  e : UInt32
  rawmode : Int

/-- `cons.buf[c % INPUT_BUF_SIZE]`. -/
def Cons.at (c : Cons) (i : UInt32) : UInt8 := c.buf (slot INPUT_BUF_SIZE i.toNat)

/-- `cons.buf[cons.e++ % INPUT_BUF_SIZE] = ch`. -/
def Cons.store (c : Cons) (ch : UInt8) : Cons :=
  { c with buf := Function.update c.buf (slot INPUT_BUF_SIZE c.e.toNat) ch, e := c.e + 1 }

/-- The loop of Control-U; there are `k` characters from `cons.w` to `cons.e`. -/
def killLine : Nat → Cons → Cons
  | 0, c => c
  | k + 1, c => if c.at (c.e - 1) = newline then c else killLine k { c with e := c.e - 1 }

def consoleintr (ch : UInt8) (c : Cons) : Cons :=
  if ch = ctrl 'P' then c
  else if ch = ctrl 'U' then killLine (c.e - c.w).toNat c
  else if ch = ctrl 'H' ∨ ch = delete then
    if c.rawmode = 0 then
      if c.e ≠ c.w then { c with e := c.e - 1 } else c
    else
      let c := c.store ch
      { c with w := c.e }
  else if ch ≠ 0 ∧ c.e - c.r < 128 then
    let ch := if ch = carriageReturn then newline else ch
    let c := c.store ch
    if c.rawmode ≠ 0 then { c with w := c.e }
    else if ch = newline ∨ ch = ctrl 'D' ∨ c.e - c.r = 128 then { c with w := c.e }
    else c
  else c

def consoleSetRawmode (on : Int) (c : Cons) : Cons := { c with rawmode := on }

/-- How a stretch of `consoleread` ends. -/
inductive Outcome
  /-- Asleep with `n` characters to go. -/
  | sleep (n : Nat)
  /-- Returned; `eof` if it has taken a Control-D. -/
  | done (eof : Bool)
  /-- Returned because `either_copyout` failed, with the character it had taken. -/
  | fault (ch : UInt8)

/-- The loop of `consoleread` with `n` characters to go; `got` is what it has copied
out, and `ok i` says that byte `i` of the destination is mapped. -/
def readLoop (ok : Nat → Bool) (target : Nat) :
    Nat → List UInt8 → Cons → Outcome × List UInt8 × Cons
  | 0, got, c => (.done false, got, c)
  | n + 1, got, c =>
    if c.r = c.w then (.sleep (n + 1), got, c)
    else
      let ch := c.at c.r
      let c := { c with r := c.r + 1 }
      if ch = ctrl 'D' then
        if n + 1 < target then (.done false, got, { c with r := c.r - 1 })
        else (.done true, got, c)
      else if ok got.length = false then (.fault ch, got, c)
      else if ch = newline then (.done false, got ++ [ch], c)
      else readLoop ok target n (got ++ [ch]) c

/-- A process asleep in `consoleread(n)`. -/
structure Reader where
  target : Nat
  n : Nat
  got : List UInt8
  ok : Nat → Bool

/-- A finished call: its arguments, the bytes copied out, whether it took a
Control-D, whether it returned -1 because the process was killed, and the character
it had taken when a copy failed. -/
structure Ret where
  n : Nat
  ok : Nat → Bool
  data : List UInt8
  eof : Bool
  killed : Bool
  lost : Option UInt8

structure Sys (P : Type) where
  cons : Cons
  reader : P → Option Reader
  accepted : List UInt8
  taken : List (P × UInt8)
  returned : P → List Ret

inductive Act (P : Type)
  | key (ch : UInt8)
  | rawmode (on : Int)
  | read (p : P) (n : Int) (ok : Nat → Bool) (killed : Bool)
  | wake (p : P) (killed : Bool)

variable {P : Type} [DecidableEq P]

/-- What the interrupt did to the characters accepted so far. -/
def remember (ch : UInt8) (c : Cons) (accepted : List UInt8) : List UInt8 :=
  let c' := consoleintr ch c
  if c'.e = c.e + 1 then accepted ++ [if ch = carriageReturn then newline else ch]
  else accepted.take (accepted.length - (c.e - c'.e).toNat)

/-- One stretch of `consoleread` by `p`.  `killed` is what `killed(myproc())` answers
where the loop finds the ring empty. -/
def readOn (s : Sys P) (p : P) (x : Reader) (killed : Bool) : Sys P :=
  let (out, got, cons) := readLoop x.ok x.target x.n x.got s.cons
  let new := (got.drop x.got.length).map (p, ·)
  match out with
  | .sleep n =>
    if killed = true then
      { s with cons, taken := s.taken ++ new, reader := Function.update s.reader p none,
               returned := Function.update s.returned p
                (s.returned p ++ [⟨x.target, x.ok, got, false, true, none⟩]) }
    else
      { s with cons, taken := s.taken ++ new,
               reader := Function.update s.reader p (some { x with n, got }) }
  | .done eof =>
    { s with cons, taken := s.taken ++ new ++ (if eof then [(p, ctrl 'D')] else []),
             reader := Function.update s.reader p none,
             returned := Function.update s.returned p
              (s.returned p ++ [⟨x.target, x.ok, got, eof, false, none⟩]) }
  | .fault ch =>
    { s with cons, taken := s.taken ++ new ++ [(p, ch)],
             reader := Function.update s.reader p none,
             returned := Function.update s.returned p
              (s.returned p ++ [⟨x.target, x.ok, got, false, false, some ch⟩]) }

def step (s : Sys P) : Act P → Option (Sys P)
  | .key ch => some { s with cons := consoleintr ch s.cons,
                             accepted := remember ch s.cons s.accepted }
  | .rawmode on => some { s with cons := consoleSetRawmode on s.cons }
  | .read p n ok killed =>
    if s.reader p ≠ none then none
    else some (readOn s p ⟨n.toNat, n.toNat, [], ok⟩ killed)
  | .wake p killed =>
    match s.reader p with
    | none => none
    | some x => some (readOn s p x killed)

/-- At boot the ring is empty and cooked. -/
def Init (s : Sys P) : Prop :=
  s.cons = ⟨fun _ => 0, 0, 0, 0, 0⟩ ∧ (∀ p, s.reader p = none) ∧ s.accepted = [] ∧ s.taken = [] ∧
    ∀ p, s.returned p = []

end Xv6.Console
