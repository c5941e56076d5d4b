/-
# `Xv6.Sched.Machine` — processes on CPUs: `scheduler`, `sched`, `swtch`, `sleep`

The part of `kernel/proc.c` in which a process gets a CPU and gives it up, for
any number of CPUs.  A CPU executes either its own scheduler thread or the
kernel thread of a process; `swtch` takes it from the one to the other,
register by register, and `p->lock` is taken by one thread and released by the
other on the way, in both directions.

  * A section under `p->lock` in which a context switch can happen, or that
    belongs to the scheduler, is modelled statement by statement.  A section
    with no switch in it (the body of `wakeup` and of `kill` at one slot,
    `allocproc` up to the `release` in `fork`, the last section of `fork`,
    `freeproc` in `wait`) is one step, enabled while the lock is free.
  * `lk` are the other spin-locks: those passed to `sleep`, and `wait_lock`,
    which `exit` holds.
  * `work` is everything else a thread computes: it writes registers.
  * A timer interrupt makes a thread that holds no spin-lock `yield`; a device
    interrupt in a scheduler thread runs a `wakeup` there.  (An interrupt in a
    process's thread is a call that this thread makes.)
  * A `panic` stops the machine: a step that would panic is not enabled.

Which processes `wait` may reap, and whom `exit` wakes, is the subject of
`Xv6.Procs`; here any process may free any ZOMBIE and wake any channel.

`saved` is history: the registers the process's thread had when it called
`swtch` (or those `allocproc` made for it).
-/
import Mathlib.Algebra.Order.Ring.Nat
import Xv6.Procs.State

namespace Xv6.Sched

open Function

/-- The registers of `struct context`: `ra`, `sp`, `s0` to `s11`. -/
abbrev NREG : Nat := 14

abbrev Regs := Fin NREG → UInt64

/-- Points of a process's thread at which it holds no `p->lock` and can be
interrupted (if it holds no other spin-lock either). -/
inductive Open (N L : Nat)
  | run
  | wakeup (chan : Nat) (j : Nat)
  | kill (pid : Int32) (j : Nat)
  -- fork: `allocproc` at slot `j`; the section that makes the child RUNNABLE
  | forkScan (j : Nat)
  | forkSet (np : Fin N)
  -- sleep: `acquire(lk)` at the end
  | sleepRelock (lk : Fin L)
  deriving DecidableEq, Repr

/-- Where `sched()` was called from. -/
inductive Ret (N L : Nat)
  | yield (r : Open N L)
  | sleep (lk : Fin L)
  | exit
  deriving DecidableEq, Repr

/-- Program points of a process's kernel thread. -/
inductive PC (N L : Nat)
  | op (o : Open N L)
  | yieldLock (r : Open N L)
  | yieldState (r : Open N L)
  | sleepLock (chan : Nat) (lk : Fin L)
  | sleepRelease (chan : Nat) (lk : Fin L)
  | sleepChan (chan : Nat) (lk : Fin L)
  | sleepState (chan : Nat) (lk : Fin L)
  | sleepUnlock (lk : Fin L)
  | exitLock (lk : Fin L)
  | exitState (lk : Fin L)
  | exitRelease (lk : Fin L)
  -- `sched()` before `swtch`; `swtch` saving and loading register `i`; after it
  | sched (k : Ret N L)
  | save (i : Nat) (k : Ret N L)
  | load (i : Nat) (k : Ret N L)
  | resumed (k : Ret N L)
  | forkret
  deriving DecidableEq, Repr

/-- What a CPU executes: `running p` is the thread of `p`, every other point is in
its scheduler thread. -/
inductive Where (N : Nat)
  | scan (j : Nat)
  | check (p : Fin N)
  | setRunning (p : Fin N)
  | setProc (p : Fin N)
  | save (p : Fin N) (i : Nat)
  | load (p : Fin N) (i : Nat)
  | running (p : Fin N)
  | back (p : Fin N)
  | release (p : Fin N)
  | wake (chan : Nat) (j : Nat) (ret : Nat)
  deriving DecidableEq, Repr

structure Proc (N L : Nat) where
  state : ProcState
  chan : Option Nat
  killed : Bool
  pid : Int32
  context : Regs
  pc : PC N L
  saved : Regs

structure Cpu (N : Nat) where
  proc : Option (Fin N)
  context : Regs
  regs : Regs
  pos : Where N

structure Sys (M N L : Nat) where
  proc : Fin N → Proc N L
  cpu : Fin M → Cpu N
  /-- `p->lock`, with the CPU that holds it. -/
  lock : Fin N → Option (Fin M)
  lk : Fin L → Option (Fin M)
  nextpid : Int32
  initproc : Fin N

/-- The addresses `allocproc` puts into a new context. -/
structure Layout (N : Nat) where
  forkret : UInt64
  kstack : Fin N → UInt64

/-- What a thread outside these functions can call. -/
inductive Call (N L : Nat)
  | acquire (lk : Fin L)
  | release (lk : Fin L)
  | sleep (chan : Nat) (lk : Fin L)
  | wakeup (chan : Nat)
  | kill (pid : Int32)
  | fork
  | exit (lk : Fin L)
  | reap (q : Fin N)

inductive Act (M N L : Nat)
  | tick (c : Fin M)
  | work (c : Fin M) (i : Fin NREG) (v : UInt64)
  | call (c : Fin M) (f : Call N L)
  | alloc (c : Fin M) (ok : Bool)
  | timer (c : Fin M)
  | intr (c : Fin M) (chan : Nat)

variable {M N L : Nat} (s : Sys M N L) (c : Fin M) (p : Fin N)

def Sys.setProc (x : Proc N L) : Sys M N L :=
  { s with proc := update s.proc p x }

def Sys.setCpu (k : Cpu N) : Sys M N L :=
  { s with cpu := update s.cpu c k }

def Sys.setLock (l : Option (Fin M)) : Sys M N L :=
  { s with lock := update s.lock p l }

def Sys.setLk (lk : Fin L) (l : Option (Fin M)) : Sys M N L :=
  { s with lk := update s.lk lk l }

def Sys.goto (pc : PC N L) : Sys M N L :=
  s.setProc p { s.proc p with pc := pc }

def Sys.cpuAt (w : Where N) : Sys M N L :=
  s.setCpu c { s.cpu c with pos := w }

/-! ## Sections with no switch in them -/

/-- The body of `wakeup(chan)` at the slot of `x`. -/
def Proc.rouse (x : Proc N L) (chan : Nat) : Proc N L :=
  if x.state = .sleeping ∧ x.chan = some chan then { x with state := .runnable } else x

/-- The body of `kill` at the slot of `x`, when the pid is the one looked for. -/
def Proc.hit (x : Proc N L) : Proc N L :=
  { x with killed := true, state := if x.state = .sleeping then .runnable else x.state }

/-- `freeproc`. -/
def Proc.free (x : Proc N L) : Proc N L :=
  { x with pid := 0, chan := none, killed := false, state := .unused }

/-- The context of a new process: all zero, but for the two registers. -/
def Layout.context (Y : Layout N) (p : Fin N) : Regs :=
  fun i => if i = 0 then Y.forkret else if i = 1 then Y.kstack p + 4096 else 0

/-- `allocproc` and the rest of `fork` up to `release(&np->lock)`. -/
def Proc.hatch (x : Proc N L) (Y : Layout N) (p : Fin N) (pid : Int32) : Proc N L :=
  { x with pid := pid, state := .used, context := Y.context p, pc := .forkret, saved := Y.context p }

/-! ## The scheduler's thread -/

/-- One statement of `scheduler()` on CPU `c`. -/
def tickSched : Option (Sys M N L) :=
  match (s.cpu c).pos with
  | .scan j =>
    if h : j < N then
      if s.lock ⟨j, h⟩ = none then
        some ((s.setLock ⟨j, h⟩ (some c)).cpuAt c (.check ⟨j, h⟩))
      else none
    else some (s.cpuAt c (.scan 0))
  | .check p =>
    if (s.proc p).state = .runnable then some (s.cpuAt c (.setRunning p))
    else some (s.cpuAt c (.release p))
  | .setRunning p =>
    some ((s.setProc p { s.proc p with state := .running }).cpuAt c (.setProc p))
  | .setProc p => some (s.setCpu c { s.cpu c with proc := some p, pos := .save p 0 })
  | .save p i =>
    if h : i < NREG then
      some (s.setCpu c { s.cpu c with
        context := update (s.cpu c).context ⟨i, h⟩ ((s.cpu c).regs ⟨i, h⟩)
        pos := .save p (i + 1) })
    else some (s.cpuAt c (.load p 0))
  | .load p i =>
    if h : i < NREG then
      some (s.setCpu c { s.cpu c with
        regs := update (s.cpu c).regs ⟨i, h⟩ ((s.proc p).context ⟨i, h⟩)
        pos := .load p (i + 1) })
    else some (s.cpuAt c (.running p))
  | .running _ => none
  | .back p => some (s.setCpu c { s.cpu c with proc := none, pos := .release p })
  | .release p => some ((s.setLock p none).cpuAt c (.scan (p + 1)))
  | .wake chan j ret =>
    if h : j < N then
      if (s.cpu c).proc = some ⟨j, h⟩ then some (s.cpuAt c (.wake chan (j + 1) ret))
      else if s.lock ⟨j, h⟩ = none then
        some ((s.setProc ⟨j, h⟩ ((s.proc ⟨j, h⟩).rouse chan)).cpuAt c (.wake chan (j + 1) ret))
      else none
    else some (s.cpuAt c (.scan ret))

/-! ## The thread of a process -/

/-- One statement of an open section, run by the thread of `p` on CPU `c`. -/
def tickOpen : Open N L → Option (Sys M N L)
  | .run => none
  | .wakeup chan j =>
    if h : j < N then
      if (s.cpu c).proc = some ⟨j, h⟩ then some (s.goto p (.op (.wakeup chan (j + 1))))
      else if s.lock ⟨j, h⟩ = none then
        some ((s.setProc ⟨j, h⟩ ((s.proc ⟨j, h⟩).rouse chan)).goto p (.op (.wakeup chan (j + 1))))
      else none
    else some (s.goto p (.op .run))
  | .kill pid j =>
    if h : j < N then
      if s.lock ⟨j, h⟩ = none then
        if (s.proc ⟨j, h⟩).pid = pid then
          some ((s.setProc ⟨j, h⟩ (s.proc ⟨j, h⟩).hit).goto p (.op .run))
        else some (s.goto p (.op (.kill pid (j + 1))))
      else none
    else some (s.goto p (.op .run))
  | .forkScan j =>
    if h : j < N then
      if s.lock ⟨j, h⟩ = none ∧ (s.proc ⟨j, h⟩).state ≠ .unused then
        some (s.goto p (.op (.forkScan (j + 1))))
      else none
    else some (s.goto p (.op .run))
  | .forkSet np =>
    if s.lock np = none then
      some ((s.setProc np { s.proc np with state := .runnable }).goto p (.op .run))
    else none
  | .sleepRelock lk =>
    if s.lk lk = none then some ((s.setLk lk (some c)).goto p (.op .run)) else none

/-- One statement of the thread of `p`, on CPU `c`. -/
def tickProc : Option (Sys M N L) :=
  match (s.proc p).pc with
  | .op o => tickOpen s c p o
  | .yieldLock r =>
    if s.lock p = none then some ((s.setLock p (some c)).goto p (.yieldState r)) else none
  | .yieldState r =>
    some (s.setProc p { s.proc p with state := .runnable, pc := .sched (.yield r) })
  | .sleepLock chan lk =>
    if s.lock p = none then some ((s.setLock p (some c)).goto p (.sleepRelease chan lk)) else none
  | .sleepRelease chan lk =>
    if s.lk lk = some c then some ((s.setLk lk none).goto p (.sleepChan chan lk)) else none
  | .sleepChan chan lk =>
    some (s.setProc p { s.proc p with chan := some chan, pc := .sleepState chan lk })
  | .sleepState _ lk =>
    some (s.setProc p { s.proc p with state := .sleeping, pc := .sched (.sleep lk) })
  | .sleepUnlock lk => some ((s.setLock p none).goto p (.op (.sleepRelock lk)))
  | .exitLock lk =>
    if s.lock p = none then some ((s.setLock p (some c)).goto p (.exitState lk)) else none
  | .exitState lk => some (s.setProc p { s.proc p with state := .zombie, pc := .exitRelease lk })
  | .exitRelease lk =>
    if s.lk lk = some c then some ((s.setLk lk none).goto p (.sched .exit)) else none
  | .sched k =>
    -- the checks of `sched()`: p->lock held, no other lock held, not RUNNING
    if s.lock p = some c ∧ (∀ lk, s.lk lk ≠ some c) ∧ (s.proc p).state ≠ .running then
      some (s.setProc p { s.proc p with saved := (s.cpu c).regs, pc := .save 0 k })
    else none
  | .save i k =>
    if h : i < NREG then
      some (s.setProc p { s.proc p with
        context := update (s.proc p).context ⟨i, h⟩ ((s.cpu c).regs ⟨i, h⟩)
        pc := .save (i + 1) k })
    else some (s.goto p (.load 0 k))
  | .load i k =>
    if h : i < NREG then
      some ((s.setCpu c { s.cpu c with
        regs := update (s.cpu c).regs ⟨i, h⟩ ((s.cpu c).context ⟨i, h⟩) }).goto p
          (.load (i + 1) k))
    else some ((s.cpuAt c (.back p)).goto p (.resumed k))
  | .resumed (.yield r) => some ((s.setLock p none).goto p (.op r))
  | .resumed (.sleep lk) => some (s.setProc p { s.proc p with chan := none, pc := .sleepUnlock lk })
  | .resumed .exit => none
  | .forkret => some ((s.setLock p none).goto p (.op .run))

/-- The thread of `p`, at no particular point, calls one of the functions. -/
def call : Call N L → Option (Sys M N L)
  | .acquire lk => if s.lk lk = none then some (s.setLk lk (some c)) else none
  | .release lk => if s.lk lk = some c then some (s.setLk lk none) else none
  | .sleep chan lk => some (s.goto p (.sleepLock chan lk))
  | .wakeup chan => some (s.goto p (.op (.wakeup chan 0)))
  | .kill pid => some (s.goto p (.op (.kill pid 0)))
  | .fork => some (s.goto p (.op (.forkScan 0)))
  | .exit lk => if p = s.initproc then none else some (s.goto p (.exitLock lk))
  | .reap q =>
    if s.lock q = none ∧ (s.proc q).state = .zombie then some (s.setProc q (s.proc q).free)
    else none

/-- `allocproc` has come to a free slot; on failure `freeproc` leaves it free. -/
def alloc (Y : Layout N) (s : Sys M N L) (p np : Fin N) (ok : Bool) : Sys M N L :=
  let s' := { s with nextpid := s.nextpid + 1 }
  if ok then
    (s'.setProc np ((s.proc np).hatch Y np s.nextpid)).goto p (.op (.forkSet np))
  else (s'.setProc np (s.proc np).free).goto p (.op .run)

/-- In the middle of `swtch`, where no other instruction runs. -/
def Sys.switching : Bool :=
  match (s.cpu c).pos with
  | .save _ _ | .load _ _ => true
  | .running p =>
    match (s.proc p).pc with
    | .save _ _ | .load _ _ => true
    | _ => false
  | _ => false

/-- One step of the machine. -/
def step (Y : Layout N) (s : Sys M N L) : Act M N L → Option (Sys M N L)
  | .tick c =>
    match (s.cpu c).pos with
    | .running p => tickProc s c p
    | _ => tickSched s c
  | .work c i v =>
    if s.switching c then none
    else some (s.setCpu c { s.cpu c with regs := update (s.cpu c).regs i v })
  | .call c f =>
    match (s.cpu c).pos with
    | .running p => if (s.proc p).pc = .op .run then call s c p f else none
    | _ => none
  | .alloc c ok =>
    match (s.cpu c).pos with
    | .running p =>
      match (s.proc p).pc with
      | .op (.forkScan j) =>
        if h : j < N then
          if s.lock ⟨j, h⟩ = none ∧ (s.proc ⟨j, h⟩).state = .unused then
            some (alloc Y s p ⟨j, h⟩ ok)
          else none
        else none
      | _ => none
    | _ => none
  | .timer c =>
    match (s.cpu c).pos with
    | .running p =>
      match (s.proc p).pc with
      | .op o => if ∀ lk, s.lk lk ≠ some c then some (s.goto p (.yieldLock o)) else none
      | _ => none
    | _ => none
  | .intr c chan =>
    match (s.cpu c).pos with
    | .scan j => some (s.cpuAt c (.wake chan 0 j))
    | _ => none

/-- Every CPU is at the start of `scheduler()`, `userinit` has made the first
process, and every other slot is as `procinit` left it. -/
structure Init (s : Sys M N L) : Prop where
  cpu : ∀ c, (s.cpu c).proc = none ∧ (s.cpu c).pos = .scan 0
  lock : ∀ p, s.lock p = none
  lk : ∀ l, s.lk l = none
  runnable : (s.proc s.initproc).state = .runnable
  initPc : (s.proc s.initproc).pc = .forkret
  initContext : (s.proc s.initproc).context = (s.proc s.initproc).saved
  unused : ∀ p, p ≠ s.initproc → (s.proc p).state = .unused
  pc : ∀ p, p ≠ s.initproc → (s.proc p).pc = .resumed .exit

end Xv6.Sched
