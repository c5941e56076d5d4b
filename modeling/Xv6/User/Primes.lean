/-
# `Xv6.User.Primes` — the pipeline of `user/primes.c` as a machine

The root process generates the numbers from 2 to `N` and then collects the reports.
Each stage reads its first number, reports it, makes a pipe, forks the next stage and
passes on the numbers it does not divide.  A process is at a program point (`PC`), and
one step takes one process to its next one; any process can be the next to run.

  * A pipe is what was ever written to it and how much of that is read.
  * `pipewrite` copies what there is room for, and sleeps with the rest; others run in
    between.  `piperead` takes what is there, up to the bytes asked for, and sleeps only
    on an empty pipe that somebody can still write to.  A process that sleeps has no
    step.
  * A write to a pipe that nobody can read fails, which `write_int` does not look at.
  * Descriptors are pairs of a pipe and an end; `fork` copies them, `close` and `exit`
    drop them.  Two pipes made by the root process are 0 (`in`) and 1 (`report`).
  * `pipe` and `fork` succeed, and nobody is killed.
-/
import Xv6.Lib.Memory
import Xv6.Lib.Run
import Xv6.Pipes.Machine

namespace Xv6.Primes

open Machine Function

/-! ## Pipes -/

structure Pipe where
  written : List UInt8
  nread : Nat

/-- The bytes in the pipe. -/
def Pipe.data (q : Pipe) : List UInt8 := q.written.drop q.nread

def Pipe.room (q : Pipe) : Nat := Pipes.pipeSize - q.data.length

def Pipe.put (q : Pipe) (bs : List UInt8) : Pipe := ⟨q.written ++ bs, q.nread⟩

def Pipe.take (q : Pipe) (n : Nat) : Pipe := ⟨q.written, q.nread + n⟩

/-- One end of a pipe, the end for writing or the other. -/
abbrev Fd := Nat × Bool

/-- `in`, and `report`. -/
abbrev IN : Nat := 0
abbrev REPORT : Nat := 1

/-! ## Program points -/

/-- `left` and `right` are the pipes of `leftfd` and `right`. -/
inductive PC
  | start
  -- main, parent: close(in[0]); close(report[1]); the generator
  | mainClose0
  | mainClose1
  | gen (x : Nat)
  | genWrite (x : Nat) (bs : List UInt8)
  | genClose
  -- the collector: `buf`, close(report[0]), the output, wait
  | collect (buf : List Nat)
  | collectClose (buf : List Nat)
  | print (buf : List Nat)
  -- main, child: close(in[1]); close(report[0])
  | firstClose0
  | firstClose1
  -- primes: read_int(leftfd, &p), and the end of an empty stage
  | head (left : Nat)
  | emptyClose0 (left : Nat)
  | emptyClose1
  -- write_int(report_wfd, p); pipe(right); fork()
  | report (left p : Nat) (bs : List UInt8)
  | fork (left p : Nat)
  -- child: close(right[1]); close(leftfd)
  | childClose0 (left right : Nat)
  | childClose1 (left right : Nat)
  -- parent: close(right[0]); filter_for_p
  | parentClose (left right p : Nat)
  | filter (left right p : Nat)
  | filterWrite (left right p : Nat) (bs : List UInt8)
  | filterClose0 (left right : Nat)
  | filterClose1 (right : Nat)
  -- close(report_wfd); wait(0); exit(0)
  | reportClose
  | wait
  | exit
  | exited
  deriving DecidableEq, Repr

structure Proc where
  pc : PC
  fds : List Fd
  parent : Nat

structure Sys where
  nproc : Nat
  proc : Nat → Proc
  npipe : Nat
  pipe : Nat → Pipe
  /-- the lines `prime %d` -/
  out : List Nat

namespace Sys

def setProc (s : Sys) (i : Nat) (x : Proc) : Sys := { s with proc := update s.proc i x }

def setPipe (s : Sys) (k : Nat) (q : Pipe) : Sys := { s with pipe := update s.pipe k q }

/-- Process `i` goes to `pc`. -/
def goto (s : Sys) (i : Nat) (pc : PC) : Sys := s.setProc i { s.proc i with pc := pc }

/-- Some process has the descriptor open. -/
def isOpen (s : Sys) (f : Fd) : Bool := (List.range s.nproc).any fun i => f ∈ (s.proc i).fds

/-- `close`, and on to `pc`. -/
def close (s : Sys) (i : Nat) (f : Fd) (pc : PC) : Sys :=
  s.setProc i { s.proc i with fds := (s.proc i).fds.filter (· ≠ f), pc := pc }

end Sys

/-! ## System calls -/

/-- `write` of the bytes `bs` to pipe `k`; `again` is where a process is that sleeps with
bytes left to write, `done` where it goes when the call returns. -/
def write (s : Sys) (i k : Nat) (bs : List UInt8) (again : List UInt8 → PC) (done : PC) :
    Option Sys :=
  if s.isOpen (k, false) = false then some (s.goto i done)
  else if bs.length ≤ (s.pipe k).room then
    some ((s.setPipe k ((s.pipe k).put bs)).goto i done)
  else if (s.pipe k).room = 0 then none
  else
    some ((s.setPipe k ((s.pipe k).put (bs.take (s.pipe k).room))).goto i
      (again (bs.drop (s.pipe k).room)))

/-- `read` of `n` bytes from pipe `k`; `k'` is where the process goes with what it got. -/
def read (s : Sys) (i k n : Nat) (next : List UInt8 → PC) : Option Sys :=
  if (s.pipe k).data = [] ∧ s.isOpen (k, true) = true then none
  else
    some ((s.setPipe k ((s.pipe k).take (min n (s.pipe k).data.length))).goto i
      (next ((s.pipe k).data.take n)))

/-- `read_int`: an `int`, if the whole of it came. -/
def readInt (s : Sys) (i k : Nat) (got : Nat → PC) (eof : PC) : Option Sys :=
  read s i k 4 fun bs => if bs.length = 4 then got (leWord bs) else eof

/-- `pipe` and `fork`: the child goes to `child`, which may depend on the new pipe. -/
def pipeFork (s : Sys) (i : Nat) (child parent : Nat → PC) : Sys :=
  let r := s.npipe
  let fds := (r, false) :: (r, true) :: (s.proc i).fds
  { s with
    nproc := s.nproc + 1
    proc := update
      (update s.proc i { s.proc i with fds := fds, pc := parent r })
      s.nproc ⟨child r, fds, i⟩
    npipe := s.npipe + 1
    pipe := update s.pipe r ⟨[], 0⟩ }

/-- A child of process `i` has exited. -/
def Sys.childExited (s : Sys) (i : Nat) : Bool :=
  (List.range s.nproc).any fun j => (s.proc j).parent = i ∧ j ≠ 0 ∧ (s.proc j).pc = .exited

/-- `pipe(in); pipe(report); fork()`. -/
def mainFork (s : Sys) : Sys :=
  let fds : List Fd := [(IN, false), (IN, true), (REPORT, false), (REPORT, true)]
  { s with
    nproc := 2
    proc := update (update s.proc 0 ⟨.mainClose0, fds, 0⟩) 1
      ⟨.firstClose0, fds, 0⟩
    npipe := 2 }

/-- Process `i` runs to its next program point.  `N` is in the place of 280. -/
def run (N : Nat) (s : Sys) (i : Nat) : Option Sys :=
  match (s.proc i).pc with
  | .start => some (mainFork s)
  | .mainClose0 => some (s.close i (IN, false) .mainClose1)
  | .mainClose1 => some (s.close i (REPORT, true) (.gen 2))
  | .gen x =>
    if x ≤ N then some (s.goto i (.genWrite x (leBytes 4 x))) else some (s.goto i .genClose)
  | .genWrite x bs => write s i IN bs (.genWrite x) (.gen (x + 1))
  | .genClose => some (s.close i (IN, true) (.collect []))
  | .collect buf =>
    readInt s i REPORT
      (fun p => .collect (if buf.length < 64 then buf ++ [p] else buf)) (.collectClose buf)
  | .collectClose buf => some (s.close i (REPORT, false) (.print buf))
  | .print buf => some ({ s with out := s.out ++ buf }.goto i .wait)
  | .firstClose0 => some (s.close i (IN, true) .firstClose1)
  | .firstClose1 => some (s.close i (REPORT, false) (.head IN))
  | .head left => readInt s i left (fun p => .report left p (leBytes 4 p)) (.emptyClose0 left)
  | .emptyClose0 left => some (s.close i (left, false) .emptyClose1)
  | .emptyClose1 => some (s.close i (REPORT, true) .exit)
  | .report left p bs => write s i REPORT bs (.report left p) (.fork left p)
  | .fork left p => some (pipeFork s i (.childClose0 left) (.parentClose left · p))
  | .childClose0 left right => some (s.close i (right, true) (.childClose1 left right))
  | .childClose1 left right => some (s.close i (left, false) (.head right))
  | .parentClose left right p => some (s.close i (right, false) (.filter left right p))
  | .filter left right p =>
    readInt s i left
      (fun x => if x % p ≠ 0 then .filterWrite left right p (leBytes 4 x)
        else .filter left right p)
      (.filterClose0 left right)
  | .filterWrite left right p bs =>
    write s i right bs (.filterWrite left right p) (.filter left right p)
  | .filterClose0 left right => some (s.close i (left, false) (.filterClose1 right))
  | .filterClose1 right => some (s.close i (right, true) .reportClose)
  | .reportClose => some (s.close i (REPORT, true) .wait)
  | .wait => if s.childExited i then some (s.goto i .exit) else none
  | .exit => some (s.setProc i { s.proc i with fds := [], pc := .exited })
  | .exited => none

/-- The scheduler chooses a process. -/
def step (N : Nat) (s : Sys) (i : Nat) : Option Sys := if i < s.nproc then run N s i else none

/-- The root process is about to start. -/
def start : Sys where
  nproc := 1
  proc := fun _ => ⟨.start, [], 0⟩
  npipe := 0
  pipe := fun _ => ⟨[], 0⟩
  out := []

end Xv6.Primes
