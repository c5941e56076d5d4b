/-
# `Xv6.Pipes.Machine` — `kernel/pipe.c` as a machine of interleaved processes

One pipe, shared by any number `N` of processes.  A process that calls
`pipewrite`, `piperead` or `pipeclose` is at a program point (`PC`), and one
step of the machine takes one process from its program point to the next.
Three things make the interleavings as fine as the kernel's:

  * `pi->lock` is explicit.  A process at a program point inside the critical
    section holds it, and `acquire` is enabled only while nobody does.
  * `wakeup` visits the process table slot by slot, taking each `p->lock` in
    turn, so other processes move between two slots of one `wakeup`.
  * `sleep` takes `p->lock`, THEN releases `pi->lock`, then marks the process
    SLEEPING.  In between (`PC.entering`) the process is not asleep yet and
    `pi->lock` is free; whoever wants to look at it waits for its `p->lock`.

`kill` and the scheduler act on any process at any moment its `p->lock` is
free.  What `copyin`, `copyout` and the caller decide (a byte or a fault, the
length of a request) is part of the action.

`fileclose` calls `pipeclose` once per side and only after the last user of
that side is gone.  Nothing below needs that, so the machine closes either
side at any time and any number of times.
-/
import Xv6.Procs.State

namespace Xv6.Pipes

/-- `PIPESIZE`. -/
def pipeSize : Nat := 512

/-- `struct pipe`, less its lock. -/
structure Pipe where
  data : Nat → UInt8
  nread : UInt32
  nwrite : UInt32
  readopen : Bool
  writeopen : Bool

/-- The two channels of a pipe, `&pi->nread` and `&pi->nwrite`. -/
inductive Chan
  | nread
  | nwrite
  deriving DecidableEq, Repr

/-- Where a process that has to take `pi->lock` goes once it holds it: the top
of one of the three functions, or, coming back from `sleep`, the top of a loop.
A writer that slept keeps its count `i`. -/
inductive Entry
  | write (n : Int) (i : Nat)
  | read (n : Int)
  | close (writable : Bool)
  deriving DecidableEq, Repr

/-- What follows a `wakeup`. -/
inductive After
  | sleep (n : Int) (i : Nat)
  | release (r : Int)
  deriving DecidableEq, Repr

/-- Program points. -/
inductive PC
  | user
  | acquire (e : Entry)
  -- pipewrite: `while(i < n)` with the test of `readopen`, `killed(pr)`, the
  -- test for a full pipe, and the copy of one byte
  | wTest (n : Int) (i : Nat)
  | wKilled (n : Int) (i : Nat)
  | wFull (n : Int) (i : Nat)
  | wCopy (n : Int) (i : Nat)
  -- piperead: the waiting loop, `killed(pr)`, and the copying loop
  | rTest (n : Int)
  | rKilled (n : Int)
  | rCopy (n : Int) (i : Nat)
  -- wakeup(c), about to look at slot `j`
  | wakeup (c : Chan) (j : Nat) (k : After)
  -- sleep(c, &pi->lock): called; holding `p->lock` without `pi->lock`; off the CPU
  | sleep (c : Chan) (e : Entry)
  | entering (c : Chan) (e : Entry)
  | asleep (e : Entry)
  | release (r : Int)
  deriving DecidableEq, Repr

/-- The part of `struct proc` that `sleep`, `wakeup`, `kill` and `killed` use,
and the process's program point.  `locked` says that the process itself holds
its `p->lock` across program points. -/
structure Proc where
  state : ProcState
  chan : Option Chan
  killed : Bool
  locked : Bool
  pc : PC
  deriving DecidableEq, Repr

structure Sys (N : Nat) where
  pi : Pipe
  lock : Option (Fin N)
  proc : Fin N → Proc

inductive Act (N : Nat)
  | call (p : Fin N) (e : Entry)
  | run (p : Fin N)
  | copyin (p : Fin N) (ch : Option UInt8)
  | copyout (p : Fin N) (ok : Bool)
  | kill (p : Fin N)
  | sched (p : Fin N)
  | yield (p : Fin N)

variable {N : Nat} (s : Sys N) (p : Fin N)

/-! ## Updates of one process -/

def Sys.setProc (x : Proc) : Sys N :=
  { s with proc := Function.update s.proc p x }

/-- Move `p` to the program point `pc`. -/
def Sys.goto (pc : PC) : Sys N :=
  s.setProc p { s.proc p with pc := pc }

/-! ## The three functions, point by point -/

/-- A call enters with nothing written yet. -/
def Entry.fresh : Entry → Bool
  | .write _ i => i == 0
  | .read _ | .close _ => true

/-- What a process does on taking `pi->lock`.  `pipeclose` clears its flag and
calls `wakeup` at once; the other two go to the top of their loops. -/
def enter : Entry → Sys N
  | .write n i => { s with lock := some p }.goto p (.wTest n i)
  | .read n => { s with lock := some p }.goto p (.rTest n)
  | .close true =>
    { s with lock := some p, pi := { s.pi with writeopen := false } }.goto p
      (.wakeup .nread 0 (.release 0))
  | .close false =>
    { s with lock := some p, pi := { s.pi with readopen := false } }.goto p
      (.wakeup .nwrite 0 (.release 0))

/-- `acquire(&p->lock); if(p->state == SLEEPING && p->chan == chan) p->state =
RUNNABLE; release(&p->lock)`, the body of `wakeup` at slot `q`. -/
def rouse (c : Chan) (q : Fin N) : Sys N :=
  if (s.proc q).state = .sleeping ∧ (s.proc q).chan = some c then
    s.setProc q { s.proc q with state := .runnable }
  else s

/-- One step of `wakeup(c)` run by `p`, at slot `j`. -/
def wakeupAt (c : Chan) (j : Nat) (k : After) : Option (Sys N) :=
  if h : j < N then
    if (⟨j, h⟩ : Fin N) = p then some (s.goto p (.wakeup c (j + 1) k))
    -- acquire(&p->lock) spins while the process is entering sleep
    else if (s.proc ⟨j, h⟩).locked then none
    else some ((rouse s c ⟨j, h⟩).goto p (.wakeup c (j + 1) k))
  else
    match k with
    | .sleep n i => some (s.goto p (.sleep .nwrite (.write n i)))
    | .release r => some (s.goto p (.release r))

/-- `pi->nwrite == pi->nread + PIPESIZE`, in 32 bits. -/
def Pipe.full (pi : Pipe) : Bool :=
  pi.nwrite == pi.nread + UInt32.ofNat pipeSize

/-- One step of process `p` that needs no answer from outside. -/
def run : Option (Sys N) :=
  match (s.proc p).pc with
  | .user => none
  | .acquire e => if s.lock = none then some (enter s p e) else none
  | .wTest n i =>
    if (i : Int) < n then
      if s.pi.readopen then some (s.goto p (.wKilled n i))
      else some ({ s with lock := none }.goto p .user)
    else some (s.goto p (.wakeup .nread 0 (.release i)))
  | .wKilled n i =>
    if (s.proc p).killed then some ({ s with lock := none }.goto p .user)
    else some (s.goto p (.wFull n i))
  | .wFull n i =>
    if s.pi.full then some (s.goto p (.wakeup .nread 0 (.sleep n i)))
    else some (s.goto p (.wCopy n i))
  | .wCopy _ _ => none
  | .rTest n =>
    if s.pi.nread = s.pi.nwrite ∧ s.pi.writeopen then some (s.goto p (.rKilled n))
    else some (s.goto p (.rCopy n 0))
  | .rKilled n =>
    if (s.proc p).killed then some ({ s with lock := none }.goto p .user)
    else some (s.goto p (.sleep .nread (.read n)))
  | .rCopy n i =>
    -- the exits of the copying loop: `i < n` fails, or the pipe is empty
    if (i : Int) < n ∧ s.pi.nread ≠ s.pi.nwrite then none
    else some (s.goto p (.wakeup .nwrite 0 (.release i)))
  | .wakeup c j k => wakeupAt s p c j k
  | .sleep c e =>
    some ({ s with lock := none }.setProc p
      { s.proc p with locked := true, pc := .entering c e })
  | .entering c e =>
    some (s.setProc p
      { s.proc p with chan := some c, state := .sleeping, locked := false, pc := .asleep e })
  | .asleep _ => none
  | .release _ => some ({ s with lock := none }.goto p .user)

/-- `copyin(.., &ch, addr + i, 1)` and the store: `none` is a fault. -/
def copyin (ch : Option UInt8) : Option (Sys N) :=
  match (s.proc p).pc with
  | .wCopy n i =>
    match ch with
    | none => some (s.goto p (.wakeup .nread 0 (.release i)))
    | some ch =>
      some ({ s with pi := { s.pi with
          data := Function.update s.pi.data (s.pi.nwrite.toNat % pipeSize) ch
          nwrite := s.pi.nwrite + 1 } }.goto p (.wTest n (i + 1)))
  | _ => none

/-- One byte of `piperead`'s copying loop.  The byte leaves the ring before
`copyout` is called, so a fault takes it all the same. -/
def copyout (ok : Bool) : Option (Sys N) :=
  match (s.proc p).pc with
  | .rCopy n i =>
    if (i : Int) < n ∧ s.pi.nread ≠ s.pi.nwrite then
      let s' := { s with pi := { s.pi with nread := s.pi.nread + 1 } }
      if ok then some (s'.goto p (.rCopy n (i + 1)))
      else some (s'.goto p (.wakeup .nwrite 0 (.release i)))
    else none
  | _ => none

/-- `kill`, once it has found the slot. -/
def kill : Option (Sys N) :=
  if (s.proc p).locked then none
  else
    some (s.setProc p { s.proc p with
      killed := true
      state := if (s.proc p).state = .sleeping then .runnable else (s.proc p).state })

/-- `scheduler` picks `p`.  A process that was in `sleep` clears `p->chan`,
releases `p->lock` and goes for `pi->lock` again. -/
def sched : Option (Sys N) :=
  if (s.proc p).state = .runnable ∧ (s.proc p).locked = false then
    match (s.proc p).pc with
    | .asleep e =>
      some (s.setProc p { s.proc p with state := .running, chan := none, pc := .acquire e })
    | _ => some (s.setProc p { s.proc p with state := .running })
  else none

/-- A timer interrupt takes the CPU from a process that holds no spin-lock. -/
def yield : Option (Sys N) :=
  if (s.proc p).state = .running ∧ (s.proc p).locked = false ∧ s.lock ≠ some p then
    some (s.setProc p { s.proc p with state := .runnable })
  else none

/-- One step of the machine. -/
def step (s : Sys N) : Act N → Option (Sys N)
  | .call p e =>
    if (s.proc p).state = .running ∧ (s.proc p).pc = .user ∧ e.fresh then
      some (s.goto p (.acquire e))
    else none
  | .run p => if (s.proc p).state = .running then run s p else none
  | .copyin p ch => if (s.proc p).state = .running then copyin s p ch else none
  | .copyout p ok => if (s.proc p).state = .running then copyout s p ok else none
  | .kill p => kill s p
  | .sched p => sched s p
  | .yield p => yield s p

/-- `pipealloc` has just made the pipe; no process is in its code yet. -/
structure Init (s : Sys N) : Prop where
  nread : s.pi.nread = 0
  nwrite : s.pi.nwrite = 0
  readopen : s.pi.readopen = true
  writeopen : s.pi.writeopen = true
  lock : s.lock = none
  pc : ∀ p, (s.proc p).pc = .user
  locked : ∀ p, (s.proc p).locked = false
  awake : ∀ p, (s.proc p).state ≠ .sleeping

end Xv6.Pipes
