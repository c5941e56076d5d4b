/-
# `Xv6.Procs.Machine` — `fork`, `exit`, `wait` and `kill` of `kernel/proc.c`

The process table as a machine.  A slot holds the fields of `struct proc` these
functions use and the program point of the process in it.  The steps are the
critical sections of the source:

  * a section under one `p->lock` is one step; where a process keeps its own
    `p->lock` from one program point to the next (in `sleep` after the release
    of `wait_lock`, in `exit` on the way to the scheduler) the slot is `locked`
    and whoever needs that lock is not enabled;
  * `wait_lock` is explicit, and a section under it (the scan in `wait`,
    `reparent` and the two `wakeup`s in `exit`) is as many steps as it takes
    `p->lock`s, so `kill`, the scheduler and `allocproc` run in between;
  * `fork` publishes its child in three steps: the slot filled in under
    `np->lock`, `np->parent` under `wait_lock`, RUNNABLE under `np->lock` again.

Whether a memory allocation in `fork` succeeds and whether `wait`'s `copyout`
faults is part of the action.  `panic("init exiting")` stops the machine, so
init's `exit` is not enabled.

Two fields are history: `uid`, a serial number that `allocproc` never gives
twice (a slot and even a pid can come back), and `creator`, the uid of the
process that called `fork`.
-/
import Mathlib.Algebra.Order.Ring.Nat
import Xv6.Procs.State

namespace Xv6.Procs

/-- What a process can sleep on: a process's own address (`sleep(p, &wait_lock)`
in `wait`), or a channel of another subsystem. -/
inductive Chan (N : Nat)
  | proc (q : Fin N)
  | other (c : Nat)
  deriving DecidableEq, Repr

/-- Program points. -/
inductive PC (N : Nat)
  | user
  -- fork: `allocproc` about to look at slot `j`; the two publishing sections
  | forkScan (j : Nat)
  | forkParent (np : Fin N)
  | forkRunnable (np : Fin N)
  -- exit: `reparent` at slot `j`, its `wakeup(initproc)` at slot `k`, then
  -- `wakeup(p->parent)` at slot `k`, the switch to ZOMBIE, and `sched()`
  | exitLock (status : Int32)
  | reparent (status : Int32) (j : Nat)
  | wakeInit (status : Int32) (j k : Nat)
  | wakeParent (status : Int32) (k : Nat)
  | exitZombie (status : Int32)
  | exitSched
  | dead
  -- wait: the scan at slot `j`, the test after it, and `sleep(p, &wait_lock)`, about to
  -- take p->lock, with it, and asleep
  | waitLock (addr : UInt64)
  | waitScan (addr : UInt64) (j : Nat) (havekids : Bool)
  | waitTest (addr : UInt64) (havekids : Bool)
  | waitSleep (addr : UInt64)
  | entering (addr : UInt64)
  | asleep (addr : UInt64)
  -- asleep somewhere else in the kernel
  | blocked
  | killScan (pid : Int32) (j : Nat)
  deriving DecidableEq, Repr

structure Proc (N : Nat) where
  state : ProcState
  chan : Option (Chan N)
  killed : Bool
  xstate : Int32
  pid : Int32
  parent : Option (Fin N)
  locked : Bool
  pc : PC N
  /-- The return value of the last system call. -/
  a0 : Int32
  /-- What `wait` last copied out to its `addr`. -/
  status : Option Int32
  uid : Nat
  creator : Option Nat
  deriving DecidableEq, Repr

structure Sys (N : Nat) where
  proc : Fin N → Proc N
  waitLock : Option (Fin N)
  nextpid : Int32
  initproc : Fin N
  nextuid : Nat

/-- System calls, and going to sleep on a channel of another subsystem. -/
inductive Call
  | fork
  | exit (status : Int32)
  | wait (addr : UInt64)
  | kill (pid : Int32)
  | sleep (c : Nat)
  deriving DecidableEq, Repr

inductive Act (N : Nat)
  | call (p : Fin N) (c : Call)
  | run (p : Fin N)
  | alloc (p : Fin N) (ok : Bool)
  | copyout (p : Fin N) (ok : Bool)
  | sched (p : Fin N)
  | yield (p : Fin N)
  | wake (q : Fin N)
  | fault (p : Fin N)

variable {N : Nat} (s : Sys N) (p : Fin N)

def Sys.setProc (x : Proc N) : Sys N :=
  { s with proc := Function.update s.proc p x }

def Sys.goto (pc : PC N) : Sys N :=
  s.setProc p { s.proc p with pc := pc }

/-- Return to user code with `a0 = r`. -/
def Sys.ret (r : Int32) : Sys N :=
  s.setProc p { s.proc p with pc := .user, a0 := r }

/-- `freeproc`, as far as the process table is concerned. -/
def Proc.free (x : Proc N) : Proc N :=
  { x with pid := 0, parent := none, chan := none, killed := false, xstate := 0,
           state := .unused, pc := .dead }

/-! ## `fork` -/

/-- `allocproc` and the rest of `fork` up to `release(&np->lock)`, at a free slot
`np`.  `ok = false` is a failed allocation: `freeproc`, and `fork` returns -1.
The pid is spent either way. -/
def allocAt (p np : Fin N) (ok : Bool) : Sys N :=
  let s' := { s with nextpid := s.nextpid + 1 }
  if ok then
    let child := { s.proc np with
      pid := s.nextpid, state := .used, pc := .user, a0 := 0,
      uid := s.nextuid, creator := some (s.proc p).uid }
    ({ s' with nextuid := s.nextuid + 1 }.setProc np child).goto p (.forkParent np)
  else (s'.setProc np (s.proc np).free).ret p (-1)

/-! ## `wakeup` -/

/-- The body of `wakeup(c)` at slot `q`. -/
def rouse (c : Chan N) (q : Fin N) : Sys N :=
  if (s.proc q).state = .sleeping ∧ (s.proc q).chan = some c then
    s.setProc q { s.proc q with state := .runnable }
  else s

/-- `wakeup(c)` run by `p`, at slot `k < N`; `none` while that slot is locked.
A null channel wakes nobody. -/
def wakeupAt (c : Option (Chan N)) (q : Fin N) : Option (Sys N) :=
  if q = p then some s
  else if (s.proc q).locked then none
  else match c with
    | some c => some (rouse s c q)
    | none => some s

/-! ## `wait` -/

/-- `wait` has found the zombie `c` and takes it: `freeproc`, both locks
released, the child's pid returned. -/
def reap (p c : Fin N) (copied : Bool) : Sys N :=
  let x := { s.proc p with
    pc := .user, a0 := (s.proc c).pid,
    status := if copied then some (s.proc c).xstate else (s.proc p).status }
  ({ s with waitLock := none }.setProc c (s.proc c).free).setProc p x

/-- The scan of `wait` run by `p`, at slot `q`, when no `copyout` is needed. -/
def scanAt (p q : Fin N) (addr : UInt64) (havekids : Bool) : Option (Sys N) :=
  if (s.proc q).parent = some p then
    if (s.proc q).locked then none
    else if (s.proc q).state = .zombie then
      if addr = 0 then some (reap s p q false) else none
    else some (s.goto p (.waitScan addr (q + 1) true))
  else some (s.goto p (.waitScan addr (q + 1) havekids))

/-! ## `kill` -/

/-- The body of `kill` at slot `q`, when the pid is the one looked for. -/
def killAt (q : Fin N) : Sys N :=
  s.setProc q { s.proc q with
    killed := true
    state := if (s.proc q).state = .sleeping then .runnable else (s.proc q).state }

/-! ## The steps -/

/-- One step of process `p` that needs no answer from outside. -/
def run : Option (Sys N) :=
  match (s.proc p).pc with
  | .user | .dead | .asleep _ | .blocked => none
  | .forkScan j =>
    if h : j < N then
      if (s.proc ⟨j, h⟩).locked ∨ (s.proc ⟨j, h⟩).state = .unused then none
      else some (s.goto p (.forkScan (j + 1)))
    else some (s.ret p (-1))
  | .forkParent np =>
    if s.waitLock = none then
      some ((s.setProc np { s.proc np with parent := some p }).goto p (.forkRunnable np))
    else none
  | .forkRunnable np =>
    if (s.proc np).locked then none
    else some ((s.setProc np { s.proc np with state := .runnable }).ret p (s.proc np).pid)
  | .exitLock st =>
    if s.waitLock = none then some ({ s with waitLock := some p }.goto p (.reparent st 0))
    else none
  | .reparent st j =>
    if h : j < N then
      if (s.proc ⟨j, h⟩).parent = some p then
        some ((s.setProc ⟨j, h⟩ { s.proc ⟨j, h⟩ with parent := some s.initproc }).goto p
          (.wakeInit st j 0))
      else some (s.goto p (.reparent st (j + 1)))
    else some (s.goto p (.wakeParent st 0))
  | .wakeInit st j k =>
    if h : k < N then
      (wakeupAt s p (some (.proc s.initproc)) ⟨k, h⟩).map fun s' => s'.goto p (.wakeInit st j (k + 1))
    else some (s.goto p (.reparent st (j + 1)))
  | .wakeParent st k =>
    if h : k < N then
      (wakeupAt s p ((s.proc p).parent.map .proc) ⟨k, h⟩).map fun s' =>
        s'.goto p (.wakeParent st (k + 1))
    else some (s.goto p (.exitZombie st))
  | .exitZombie st =>
    some ({ s with waitLock := none }.setProc p
      { s.proc p with xstate := st, state := .zombie, locked := true, pc := .exitSched })
  | .exitSched => some (s.setProc p { s.proc p with locked := false, pc := .dead })
  | .waitLock addr =>
    if s.waitLock = none then
      some ({ s with waitLock := some p }.goto p (.waitScan addr 0 false))
    else none
  | .waitScan addr j havekids =>
    if h : j < N then scanAt s p ⟨j, h⟩ addr havekids
    else some (s.goto p (.waitTest addr havekids))
  | .waitTest addr havekids =>
    if havekids = false ∨ (s.proc p).killed then some ({ s with waitLock := none }.ret p (-1))
    else some (s.goto p (.waitSleep addr))
  | .waitSleep addr =>
    some ({ s with waitLock := none }.setProc p
      { s.proc p with locked := true, pc := .entering addr })
  | .entering addr =>
    some (s.setProc p { s.proc p with
      chan := some (.proc p), state := .sleeping, locked := false, pc := .asleep addr })
  | .killScan pid j =>
    if h : j < N then
      if (s.proc ⟨j, h⟩).locked then none
      else if (s.proc ⟨j, h⟩).pid = pid then some ((killAt s ⟨j, h⟩).ret p 0)
      else some (s.goto p (.killScan pid (j + 1)))
    else some (s.ret p (-1))

/-- `allocproc` has come to a free slot. -/
def alloc (ok : Bool) : Option (Sys N) :=
  match (s.proc p).pc with
  | .forkScan j =>
    if h : j < N then
      if (s.proc ⟨j, h⟩).state = .unused ∧ (s.proc ⟨j, h⟩).locked = false then
        some (allocAt s p ⟨j, h⟩ ok)
      else none
    else none
  | _ => none

/-- `wait` has come to a zombie child and copies its status out to `addr`.  On a
fault it gives up, and the child stays a zombie. -/
def copyout (ok : Bool) : Option (Sys N) :=
  match (s.proc p).pc with
  | .waitScan addr j _ =>
    if h : j < N then
      if (s.proc ⟨j, h⟩).parent = some p ∧ (s.proc ⟨j, h⟩).locked = false ∧
          (s.proc ⟨j, h⟩).state = .zombie ∧ addr ≠ 0 then
        if ok then some (reap s p ⟨j, h⟩ true)
        else some ({ s with waitLock := none }.ret p (-1))
      else none
    else none
  | _ => none

/-- A process in user code enters the kernel. -/
def call : Call → Option (Sys N)
  | .fork => some (s.goto p (.forkScan 0))
  | .exit st => if p = s.initproc then none else some (s.goto p (.exitLock st))
  | .wait addr => some (s.goto p (.waitLock addr))
  | .kill pid => some (s.goto p (.killScan pid 0))
  | .sleep c =>
    some (s.setProc p { s.proc p with chan := some (.other c), state := .sleeping, pc := .blocked })

/-- `scheduler` picks `p`; a process that was asleep clears `p->chan`. -/
def sched : Option (Sys N) :=
  if (s.proc p).state = .runnable ∧ (s.proc p).locked = false then
    match (s.proc p).pc with
    | .asleep addr =>
      some (s.setProc p { s.proc p with state := .running, chan := none, pc := .waitLock addr })
    | .blocked =>
      some (s.setProc p { s.proc p with state := .running, chan := none, pc := .user })
    | _ => some (s.setProc p { s.proc p with state := .running })
  else none

/-- One step of the machine.  Only `exitSched` is run by a process that is not
RUNNING: it has just made itself a ZOMBIE. -/
def step (s : Sys N) : Act N → Option (Sys N)
  | .call p c =>
    if (s.proc p).state = .running ∧ (s.proc p).pc = .user then call s p c else none
  | .run p =>
    if (s.proc p).state = .running ∨ (s.proc p).pc = .exitSched then run s p else none
  | .alloc p ok => if (s.proc p).state = .running then alloc s p ok else none
  | .copyout p ok => if (s.proc p).state = .running then copyout s p ok else none
  | .sched p => sched s p
  | .yield p =>
    -- a timer interrupt; interrupts are off while a spin-lock is held
    if (s.proc p).state = .running ∧ (s.proc p).locked = false ∧ s.waitLock ≠ some p then
      some (s.setProc p { s.proc p with state := .runnable })
    else none
  | .wake q =>
    -- a `wakeup` of another subsystem
    match (s.proc q).chan with
    | some (.other c) => if (s.proc q).locked then none else some (rouse s (.other c) q)
    | _ => none
  | .fault p =>
    -- `usertrap` does not know the cause: `setkilled(p)`
    if (s.proc p).state = .running ∧ (s.proc p).pc = .user ∧ (s.proc p).locked = false then
      some (s.setProc p { s.proc p with killed := true })
    else none

/-- `userinit` has made the first process; every other slot is as `procinit`
left it. -/
structure Init (s : Sys N) : Prop where
  waitLock : s.waitLock = none
  nextpid : s.nextpid = 2
  nextuid : s.nextuid = 1
  runnable : (s.proc s.initproc).state = .runnable
  initPc : (s.proc s.initproc).pc = .user
  initPid : (s.proc s.initproc).pid = 1
  initUid : (s.proc s.initproc).uid = 0
  unused : ∀ p, p ≠ s.initproc → (s.proc p).state = .unused
  pid : ∀ p, p ≠ s.initproc → (s.proc p).pid = 0
  pc : ∀ p, p ≠ s.initproc → (s.proc p).pc = .dead
  parent : ∀ p, (s.proc p).parent = none
  locked : ∀ p, (s.proc p).locked = false
  killed : ∀ p, (s.proc p).killed = false
  chan : ∀ p, (s.proc p).chan = none

end Xv6.Procs
