/-
# `Xv6.Sched.Inv` — one CPU per process

`p->lock` is taken in one thread and released in another: the scheduler takes it
before `swtch` and the process releases it after, the process takes it before
`sched()` and the scheduler releases it after.  The invariant follows the lock
through this: which program points of which thread hold it (`Where.holds`), and
that a process whose lock is free is either at an open point on exactly one CPU
and RUNNING, or off every CPU with its registers saved (`Parked`).

Every step concerns one CPU and one slot.  `Inv.about` says what such a step has
to show for the invariant to survive; the steps of a thread, of the scheduler
and the sections of `wakeup`, `kill`, `fork` and `wait` on other slots are
special cases.

**Proved here.**

  * RUNNING and `c->proc`, no process on two CPUs, saved contexts complete, no ZOMBIE or
    UNUSED switched to (`one_cpu_per_process`)
-/
import Xv6.Lib.Run
import Xv6.Sched.Steps

namespace Xv6.Sched

open Machine Function

variable {M N L : Nat}

/-! ## Program points -/

/-- The scheduler has chosen `p`, or `p`'s thread runs, or the switch back from
it is not yet recorded. -/
def Where.has (p : Fin N) : Where N → Prop
  | .setProc q | .save q _ | .load q _ | .running q | .back q => q = p
  | _ => False

/-- `c->proc` is `p`. -/
def Where.knows (p : Fin N) : Where N → Prop
  | .save q _ | .load q _ | .running q | .back q => q = p
  | _ => False

/-- The point relies on something in the slot of `p`. -/
def Where.cares (p : Fin N) : Where N → Prop
  | .setRunning q | .setProc q | .save q _ | .load q _ | .running q | .back q => q = p
  | _ => False

/-- The point has to do with `p` at all. -/
def Where.about (p : Fin N) : Where N → Prop
  | .check q | .setRunning q | .setProc q | .save q _ | .load q _ | .running q | .back q
  | .release q => q = p
  | _ => False

/-- The thread of `p`, at this point, holds `p->lock`. -/
def PC.locked : PC N L → Bool
  | .op _ | .yieldLock _ | .sleepLock _ _ | .exitLock _ => false
  | _ => true

/-- A CPU at this point holds `p->lock`; `pc` is where the thread of `p` is. -/
def Where.holds (p : Fin N) (pc : PC N L) : Where N → Prop
  | .check q | .setRunning q | .setProc q | .save q _ | .load q _ | .back q | .release q => q = p
  | .running q => q = p ∧ pc.locked = true
  | _ => False

/-- Points at which a thread comes back to life. -/
def PC.resumes : PC N L → Prop
  | .forkret | .resumed (.yield _) | .resumed (.sleep _) => True
  | _ => False

/-- The state in which `sched()` is called. -/
def Ret.fits : Ret N L → ProcState → Prop
  | .yield _, st => st = .runnable
  | .sleep _, st => st = .sleeping
  | .exit, st => st = .zombie

/-- The child a `fork` in progress is about to make RUNNABLE. -/
def Open.child : Open N L → Option (Fin N)
  | .forkSet np => some np
  | _ => none

def Ret.child : Ret N L → Option (Fin N)
  | .yield r => r.child
  | _ => none

def PC.child : PC N L → Option (Fin N)
  | .op o | .yieldLock o | .yieldState o => o.child
  | .sched k | .save _ k | .load _ k | .resumed k => k.child
  | _ => none

/-! ## The invariant -/

/-- Where a thread that is on no CPU can be, by the state of its process. -/
def PC.parks (pc : PC N L) : ProcState → Prop
  | .unused | .zombie => pc = .resumed .exit
  | .used => pc = .forkret
  | .sleeping => ∃ lk, pc = .resumed (.sleep lk)
  | .runnable => pc.resumes
  | .running => False

/-- A process on no CPU, with all its registers saved. -/
structure Parked (x : Proc N L) : Prop where
  parks : x.pc.parks x.state
  saved : x.state ≠ .unused → x.context = x.saved

/-- A process on the CPU `k`. -/
def RunOk (k : Cpu N) (x : Proc N L) : Prop :=
  match x.pc with
  | .resumed .exit => False
  | .exitRelease _ => x.state = .zombie
  | .sched r => r.fits x.state
  | .save i r => r.fits x.state ∧ k.regs = x.saved ∧
      ∀ j : Fin NREG, (j : Nat) < i → x.context j = x.saved j
  | .load _ r => r.fits x.state ∧ x.context = x.saved
  | _ => x.state = .running

/-- A process that the scheduler switches to. -/
structure Chosen (x : Proc N L) : Prop where
  state : x.state = .running
  pc : x.pc.resumes
  saved : x.context = x.saved

def CpuOk (x : Fin N → Proc N L) (k : Cpu N) : Prop :=
  match k.pos with
  | .setRunning p => (x p).state = .runnable
  | .setProc p | .save p _ => Chosen (x p)
  | .load p i => Chosen (x p) ∧ ∀ j : Fin NREG, (j : Nat) < i → k.regs j = (x p).saved j
  | .running p => RunOk k (x p)
  | .back p => Parked (x p)
  | _ => True

structure Inv (s : Sys M N L) : Prop where
  lock : ∀ c p, s.lock p = some c ↔ (s.cpu c).pos.holds p (s.proc p).pc
  uniq : ∀ c d p, (s.cpu c).pos.has p → (s.cpu d).pos.has p → c = d
  proc : ∀ c p, (s.cpu c).proc = some p ↔ (s.cpu c).pos.knows p
  cpu : ∀ c, CpuOk s.proc (s.cpu c)
  off : ∀ p, (∀ c, ¬ (s.cpu c).pos.has p) → Parked (s.proc p)
  born : ∀ p np, (s.proc p).pc.child = some np → (s.proc np).state = .used
  sole : ∀ p q np, (s.proc p).pc.child = some np → (s.proc q).pc.child = some np → p = q

/-! ## Small facts about points -/

variable {p : Fin N} {w : Where N} {pc : PC N L} {k : Cpu N} {st : ProcState} {x : Proc N L}

theorem Where.has_of_knows (h : w.knows p) : w.has p := by
  cases w <;> first | exact h | exact h.elim

theorem Where.cares_of_has (h : w.has p) : w.cares p := by
  cases w <;> first | exact h | exact h.elim

theorem Where.about_of_cares (h : w.cares p) : w.about p := by
  cases w <;> first | exact h | exact h.elim

theorem Where.about_of_holds (h : w.holds p pc) : w.about p := by
  cases w <;> first | exact h | exact h.elim | exact h.1

/-- A point that relies on the slot holds the lock, or the thread itself runs. -/
theorem Where.holds_of_cares (h : w.cares p) : (∀ pc : PC N L, w.holds p pc) ∨ w = .running p := by
  cases w with
  | running q => exact .inr (by rw [show q = p from h])
  | _ => first | exact .inl fun _ => h | exact h.elim

theorem PC.resumes.child_or (h : pc.resumes) :
    pc = .forkret ∨ (∃ r, pc = .resumed (.yield r)) ∨ ∃ lk, pc = .resumed (.sleep lk) := by
  cases pc with
  | forkret => exact .inl rfl
  | resumed k =>
    cases k with
    | yield r => exact .inr (.inl ⟨r, rfl⟩)
    | sleep lk => exact .inr (.inr ⟨lk, rfl⟩)
    | exit => exact h.elim
  | _ => exact h.elim

theorem Ret.fits_cases {k : Ret N L} (h : k.fits st) :
    st = .runnable ∨ st = .sleeping ∨ st = .zombie := by
  cases k with
  | yield r => exact .inl h
  | sleep lk => exact .inr (.inl h)
  | exit => exact .inr (.inr h)

theorem RunOk.running (h : RunOk k x) (hl : x.pc.locked = false) : x.state = .running := by
  unfold RunOk at h
  cases hpc : x.pc with
  | op o | yieldLock r | sleepLock a b | exitLock a => rwa [hpc] at h
  | _ => rw [hpc] at hl; cases hl

theorem RunOk.ne_used (h : RunOk k x) : x.state ≠ .used := by
  unfold RunOk at h
  intro hu
  rw [hu] at h
  have hf : ∀ r : Ret N L, ¬ r.fits .used := by
    intro r hr
    rcases Ret.fits_cases hr with h | h | h <;> cases h
  cases hpc : x.pc with
  | sched r => rw [hpc] at h; exact hf r h
  | save i r | load i r => rw [hpc] at h; exact hf r h.1
  | resumed r => rw [hpc] at h; cases r <;> first | exact h | cases h
  | _ => rw [hpc] at h; cases h

section
variable {Y : Layout N} {s t : Sys M N L} {c : Fin M} {p : Fin N} {w v : Where N} {i : Nat}

/-! What the invariant says of a CPU at a known point. -/

section
variable (hI : Inv s)
include hI

section
variable (hw : (s.cpu c).pos = w)
include hw

theorem Inv.lockAt : s.lock p = some c ↔ w.holds p (s.proc p).pc := hw ▸ hI.lock c p

theorem Inv.procAt (q : Fin N) : (s.cpu c).proc = some q ↔ w.knows q := hw ▸ hI.proc c q

theorem Inv.okAt : CpuOk s.proc { s.cpu c with pos := w } := by
  subst hw
  exact hI.cpu c

end

theorem Inv.running (hpos : (s.cpu c).pos = .running p) : RunOk (s.cpu c) (s.proc p) :=
  hI.okAt hpos

theorem Inv.runAt (h : On s c p pc) : RunOk (s.cpu c) { s.proc p with pc := pc } := by
  obtain ⟨hpos, rfl⟩ := h
  exact hI.running hpos

/-- A CPU that has `p` is the only one to rely on its slot. -/
theorem Inv.mine (h : (s.cpu c).pos.has p) {d : Fin M} (hd : d ≠ c) : ¬ (s.cpu d).pos.cares p := by
  intro hcares
  -- `d` does not have `p`, so it is about to choose it, with the lock held
  cases hw : (s.cpu d).pos with
  | setRunning q =>
    rw [hw] at hcares
    obtain rfl : q = p := hcares
    have hld : s.lock q = some d := (hI.lockAt hw).mpr rfl
    have hst : (s.proc q).state = .runnable := hI.okAt hw
    rcases Where.holds_of_cares (Where.cares_of_has h) with hh | hr
    · have := (hI.lock c q).mpr (hh _)
      rw [hld] at this
      exact hd (Option.some.inj this)
    · cases hlk : (s.proc q).pc.locked with
      | false =>
        have := (hI.running hr).running hlk
        rw [hst] at this; cases this
      | true =>
        have := (hI.lockAt hr).mpr ⟨rfl, hlk⟩
        rw [hld] at this
        exact hd (Option.some.inj this)
  | _ =>
    refine hd (hI.uniq d c p ?_ h)
    rw [hw] at hcares ⊢
    exact hcares

/-- A slot whose lock is free and whose process does not run. -/
theorem Inv.nobody (hl : s.lock p = none) (hs : (s.proc p).state ≠ .running) (d : Fin M) :
    ¬ (s.cpu d).pos.cares p := by
  intro hcares
  have hno : ¬ (s.cpu d).pos.holds p (s.proc p).pc := fun h => by
    rw [(hI.lock d p).mpr h] at hl; cases hl
  rcases Where.holds_of_cares hcares with hh | hr
  · exact hno (hh _)
  · rw [hr] at hno
    exact hs ((hI.running hr).running (by simpa [Where.holds] using hno))

end

/-- The fields the invariant reads are the same. -/
structure Agree (x y : Proc N L) : Prop where
  state : y.state = x.state
  pc : y.pc = x.pc
  context : y.context = x.context
  saved : y.saved = x.saved

theorem Agree.refl (x : Proc N L) : Agree x x := ⟨rfl, rfl, rfl, rfl⟩

variable {x y : Proc N L} {q np : Fin N}

theorem Agree.parked (h : Agree x y) (hx : Parked x) : Parked y :=
  ⟨by rw [h.pc, h.state]; exact hx.parks, fun hs => by
    rw [h.context, h.saved]; exact hx.saved (h.state ▸ hs)⟩

theorem Agree.chosen (h : Agree x y) (hx : Chosen x) : Chosen y :=
  ⟨h.state.trans hx.state, by rw [h.pc]; exact hx.pc, by rw [h.context, h.saved]; exact hx.saved⟩

theorem Agree.runOk (h : Agree x y) (hx : RunOk k x) : RunOk k y := by
  unfold RunOk at *
  rwa [h.pc, h.state, h.context, h.saved]

theorem CpuOk.congr {x y : Fin N → Proc N L} (h : CpuOk x k)
    (hxy : ∀ q, k.pos.cares q → Agree (x q) (y q)) : CpuOk y k := by
  unfold CpuOk at *
  cases hpos : k.pos with
  | setRunning p => rw [hpos] at h hxy; exact (hxy p rfl).state.trans h
  | setProc p | save p i => rw [hpos] at h hxy; exact (hxy p rfl).chosen h
  | load p i =>
    rw [hpos] at h hxy
    exact ⟨(hxy p rfl).chosen h.1, fun j hj => by rw [(hxy p rfl).saved]; exact h.2 j hj⟩
  | running p => rw [hpos] at h hxy; exact (hxy p rfl).runOk h
  | back p => rw [hpos] at h hxy; exact (hxy p rfl).parked h
  | _ => trivial

/-- `t` differs from `s` only at the CPU `c` and the slot `p`. -/
structure Frame (s t : Sys M N L) (c : Fin M) (p : Fin N) : Prop where
  cpu : ∀ d, d ≠ c → t.cpu d = s.cpu d
  proc : ∀ q, q ≠ p → t.proc q = s.proc q
  lock : ∀ q, q ≠ p → t.lock q = s.lock q

/-- What a step does to the forks in progress. -/
structure Forks (s : Sys M N L) (p : Fin N) (y : Proc N L) : Prop where
  child : ∀ np, y.pc.child = some np → (s.proc p).pc.child = some np ∨
    (np ≠ p ∧ (s.proc np).state = .used ∧ ∀ q, (s.proc q).pc.child ≠ some np)
  used : (s.proc p).state = .used → y.state = .used ∨ ∀ q, (s.proc q).pc.child ≠ some p

theorem Forks.keep (h : y.pc.child = (s.proc p).pc.child)
    (hu : (s.proc p).state = .used → y.state = .used) : Forks s p y :=
  ⟨fun _ hnp => .inl (h ▸ hnp), fun hs => .inl (hu hs)⟩

/-- The two clauses about forks. -/
theorem Inv.forks (hI : Inv s) (hproc : ∀ q, q ≠ p → t.proc q = s.proc q)
    (hF : Forks s p (t.proc p)) :
    (∀ q np, (t.proc q).pc.child = some np → (t.proc np).state = .used) ∧
    ∀ q r np, (t.proc q).pc.child = some np → (t.proc r).pc.child = some np → q = r := by
  -- a child of `t` was one in `s`, or is new
  have hold : ∀ q np, (t.proc q).pc.child = some np → (s.proc q).pc.child = some np ∨
      (q = p ∧ np ≠ p ∧ (s.proc np).state = .used ∧ ∀ r, (s.proc r).pc.child ≠ some np) := by
    intro q np hq
    by_cases hqp : q = p
    · subst hqp
      rcases hF.child np hq with h | h
      · exact .inl h
      · exact .inr ⟨rfl, h⟩
    · rw [hproc q hqp] at hq; exact .inl hq
  refine ⟨fun q np hq => ?_, fun q r np hq hr => ?_⟩
  · rcases hold q np hq with h | ⟨-, hne, hu, -⟩
    · by_cases hnp : np = p
      · subst hnp
        rcases hF.used (hI.born q np h) with hu | hno
        · exact hu
        · exact absurd h (hno q)
      · rw [hproc np hnp]; exact hI.born q np h
    · rwa [hproc np hne]
  · rcases hold q np hq with h | ⟨hqp, -, -, hno⟩
    · rcases hold r np hr with h' | ⟨-, -, -, hno⟩
      · exact hI.sole q r np h h'
      · exact absurd h (hno q)
    · rcases hold r np hr with h' | ⟨hrp, -⟩
      · exact absurd h' (hno r)
      · rw [hqp, hrp]

/-- A step at the CPU `c` and the slot `p`, before and after which `c` has to do
with no other process. -/
theorem Inv.about (hI : Inv s) (F : Frame s t c p)
    (hv : (s.cpu c).pos = v) (hk : t.cpu c = k) (hy : t.proc p = y)
    (hab : ∀ q, v.about q → q = p) (hab' : ∀ q, k.pos.about q → q = p)
    (hl : t.lock p = some c ↔ k.pos.holds p y.pc)
    (hl' : ∀ d, d ≠ c → (t.lock p = some d ↔ s.lock p = some d))
    (hx : Agree (s.proc p) y ∨ ∀ d, d ≠ c → ¬ (s.cpu d).pos.cares p)
    (hu : k.pos.has p → ∀ d, d ≠ c → ¬ (s.cpu d).pos.has p)
    (hproc : ∀ q, k.proc = some q ↔ k.pos.knows q) (hcpu : CpuOk t.proc k)
    (hoff : ¬ k.pos.has p → (∀ d, d ≠ c → ¬ (s.cpu d).pos.has p) → Parked y)
    (hF : Forks s p y) : Inv t := by
  subst hv hk hy
  have habh : ∀ {w : Where N}, (∀ q, w.about q → q = p) → ∀ q, w.has q → q = p := fun h q hq =>
    h q (Where.about_of_cares (Where.cares_of_has hq))
  -- other CPUs see the slot of `p` as before
  have hpc : ∀ d, d ≠ c →
      ((s.cpu d).pos.holds p (t.proc p).pc ↔ (s.cpu d).pos.holds p (s.proc p).pc) := by
    intro d hd
    rcases hx with hx | hx
    · rw [hx.pc]
    · cases hw : (s.cpu d).pos with
      | running q =>
        have : ¬ q = p := fun h => hx d hd (by rwa [hw])
        simp [Where.holds, this]
      | _ => rfl
  obtain ⟨hborn, hsole⟩ := hI.forks F.proc hF
  refine ⟨fun d q => ?_, fun d e q hd he => ?_, fun d q => ?_, fun d => ?_, fun q hq => ?_,
    hborn, hsole⟩
  · by_cases hd : d = c
    · subst hd
      by_cases hq : q = p
      · subst hq; exact hl
      · rw [F.lock q hq, F.proc q hq, hI.lock d q]
        exact ⟨fun h => absurd (hab q (Where.about_of_holds h)) hq,
          fun h => absurd (hab' q (Where.about_of_holds h)) hq⟩
    · rw [F.cpu d hd]
      by_cases hq : q = p
      · subst hq; rw [hl' d hd, hI.lock d q, hpc d hd]
      · rw [F.lock q hq, F.proc q hq]; exact hI.lock d q
  · by_cases hdc : d = c
    · by_cases hec : e = c
      · rw [hdc, hec]
      · exfalso
        subst hdc
        rw [F.cpu e hec] at he
        obtain rfl := habh hab' q hd
        exact hu hd e hec he
    · by_cases hec : e = c
      · exfalso
        subst hec
        rw [F.cpu d hdc] at hd
        obtain rfl := habh hab' q he
        exact hu he d hdc hd
      · rw [F.cpu d hdc] at hd
        rw [F.cpu e hec] at he
        exact hI.uniq d e q hd he
  · by_cases hd : d = c
    · subst hd; exact hproc q
    · rw [F.cpu d hd]; exact hI.proc d q
  · by_cases hd : d = c
    · subst hd; exact hcpu
    · rw [F.cpu d hd]
      refine (hI.cpu d).congr fun q hq => ?_
      by_cases hqp : q = p
      · subst hqp
        rcases hx with hx | hx
        · exact hx
        · exact absurd hq (hx d hd)
      · rw [F.proc q hqp]; exact .refl _
  · by_cases hqp : q = p
    · subst hqp
      refine hoff (hq c) fun d hd => ?_
      have := hq d
      rwa [F.cpu d hd] at this
    · rw [F.proc q hqp]
      refine hI.off q fun d hd => ?_
      by_cases hdc : d = c
      · subst hdc; exact hqp (habh hab q hd)
      · have := hq d
        rw [F.cpu d hdc] at this
        exact this hd

/-- A section at the slot `p` of another thread, under its free lock. -/
theorem Inv.poke (hI : Inv s) (hl : s.lock p = none)
    (hx : Agree (s.proc p) y ∨ ((s.proc p).state ≠ .running ∧ Parked y)) (hF : Forks s p y) :
    Inv (s.setProc p y) := by
  have hself : (s.setProc p y).proc p = y := setProc_self s p y
  have hproc : ∀ q, q ≠ p → (s.setProc p y).proc q = s.proc q := fun _ h => setProc_ne s y h
  generalize ht : s.setProc p y = t at hself hproc
  obtain ⟨hcpu, hlock⟩ : t.cpu = s.cpu ∧ t.lock = s.lock := by
    subst ht
    exact ⟨rfl, rfl⟩
  subst hself
  have hagree : ∀ d q, (s.cpu d).pos.cares q → Agree (s.proc q) (t.proc q) := by
    intro d q hd
    by_cases hqp : q = p
    · subst hqp
      rcases hx with hx | ⟨hs, -⟩
      · exact hx
      · exact absurd hd (hI.nobody hl hs d)
    · rw [hproc q hqp]; exact .refl _
  obtain ⟨hborn, hsole⟩ := hI.forks hproc hF
  refine ⟨fun d q => ?_, fun d e q => ?_, fun d q => ?_, fun d => ?_, fun q hq => ?_, hborn, hsole⟩
  · rw [hcpu, hlock, hI.lock d q]
    cases hw : (s.cpu d).pos with
    | running r =>
      constructor
      · rintro ⟨rfl, hlk⟩
        rw [(hagree d r (by rw [hw]; rfl)).pc]; exact ⟨rfl, hlk⟩
      · rintro ⟨rfl, hlk⟩
        rw [(hagree d r (by rw [hw]; rfl)).pc] at hlk; exact ⟨rfl, hlk⟩
    | _ => rfl
  · rw [hcpu]; exact hI.uniq d e q
  · rw [hcpu]; exact hI.proc d q
  · rw [hcpu]; exact (hI.cpu d).congr (hagree d)
  · rw [hcpu] at hq
    by_cases hqp : q = p
    · subst hqp
      rcases hx with hx | ⟨-, hx⟩
      · exact hx.parked (hI.off q hq)
      · exact hx
    · rw [hproc q hqp]; exact hI.off q hq

/-! ## The thread of a process -/

/-- What a statement of the thread of `p` does to `p->lock`. -/
inductive LockMove (s t : Sys M N L) (c : Fin M) (p : Fin N) (pc : PC N L) : Prop
  | keep (h : t.lock p = s.lock p) (hl : pc.locked = (s.proc p).pc.locked)
  | take (h : s.lock p = none) (h' : t.lock p = some c) (hl : pc.locked = true)
  | drop (h : (s.proc p).pc.locked = true) (h' : t.lock p = none) (hl : pc.locked = false)

section
variable (hI : Inv s)
include hI

/-- CPU `c` executes a statement of the thread of `p`, and goes on with it. -/
theorem Inv.thread (F : Frame s t c p) (hx : t.proc p = x)
    (hpos : (s.cpu c).pos = .running p) (hpos' : (t.cpu c).pos = .running p)
    (hp : (t.cpu c).proc = (s.cpu c).proc) (hm : LockMove s t c p x.pc) (hrun : RunOk (t.cpu c) x)
    (hch : ∀ np, x.pc.child = some np → (s.proc p).pc.child = some np ∨
      (np ≠ p ∧ (s.proc np).state = .used ∧ ∀ q, (s.proc q).pc.child ≠ some np)) : Inv t := by
  have hhas : (s.cpu c).pos.has p := by rw [hpos]; rfl
  have hlock : s.lock p = some c ↔ (s.proc p).pc.locked = true :=
    (hI.lockAt hpos).trans (and_iff_right rfl)
  obtain ⟨k, hk⟩ : ∃ k, t.cpu c = k := ⟨_, rfl⟩
  rw [hk] at hpos' hp hrun
  obtain ⟨kp, kr, kc, kpos⟩ := k
  obtain rfl : kpos = .running p := hpos'
  refine hI.about F hpos hk hx (fun _ => Eq.symm) (fun _ => Eq.symm) ?_ (fun d hd => ?_)
    (.inr fun d hd => hI.mine hhas hd) (fun _ d hd h => hd (hI.uniq d c p h hhas))
    (fun q => hp ▸ hI.procAt hpos q) (by subst hx; exact hrun) (absurd rfl)
    ⟨hch, fun hs => absurd hs (hI.running hpos).ne_used⟩
  · refine Iff.trans ?_ (and_iff_right rfl).symm
    cases hm with
    | keep h hl => rwa [h, hl]
    | take _ h' hl => simp [h', hl]
    | drop _ h' hl => simp [h', hl]
  · cases hm with
    | keep h _ => rw [h]
    | take h h' _ => simp [h, h', Ne.symm hd]
    | drop h h' _ => simp [hlock.mpr h, h', Ne.symm hd]

/-- The thread of `p` changes its own slot, and keeps the lock or keeps off it. -/
theorem Inv.set (hpos : (s.cpu c).pos = .running p)
    (hl : x.pc.locked = (s.proc p).pc.locked) (hrun : RunOk (s.cpu c) x)
    (hch : ∀ np, x.pc.child = some np → (s.proc p).pc.child = some np) : Inv (s.setProc p x) :=
  hI.thread ⟨fun _ _ => rfl, fun _ h => setProc_ne s _ h, fun _ _ => rfl⟩
    (setProc_self s p x) hpos hpos rfl (.keep rfl hl) hrun fun np h => .inl (hch np h)

/-- Only `p->lock`, `c->proc`, the slots and the CPUs matter. -/
theorem Inv.congr (hc : t.cpu = s.cpu) (hp : t.proc = s.proc) (hl : t.lock = s.lock) : Inv t := by
  refine ⟨?_, ?_, ?_, ?_, ?_, ?_, ?_⟩
  · rw [hc, hp, hl]; exact hI.lock
  · rw [hc]; exact hI.uniq
  · rw [hc]; exact hI.proc
  · rw [hc, hp]; exact hI.cpu
  · rw [hc, hp]; exact hI.off
  · rw [hp]; exact hI.born
  · rw [hp]; exact hI.sole

theorem Inv.open_running {o : Open N L} (h : On s c p (.op o)) :
    (s.proc p).state = .running := (hI.running h.pos).running (by rw [h.pc]; rfl)

/-- From one open point to another. -/
theorem Inv.walk {o o' : Open N L} (h : On s c p (.op o)) (hch : o'.child = none) :
    Inv (s.goto p (.op o')) :=
  hI.set h.pos (by rw [h.pc]; rfl) (hI.open_running h) fun np hnp => by
    rw [show (PC.op o' : PC N L).child = o'.child from rfl, hch] at hnp; cases hnp

end

/-! ## Sections on other slots -/

theorem Parked.rouse (hx : Parked x) (chan : Nat) : Parked (x.rouse chan) := by
  unfold Proc.rouse
  split
  · rename_i h
    obtain ⟨hp, hs⟩ := hx
    rw [h.1] at hp
    obtain ⟨lk, hpc⟩ := hp
    exact ⟨by rw [hpc]; trivial, fun _ => hs (by rw [h.1]; simp)⟩
  · exact hx

/-- `wakeup` at a slot whose lock is free. -/
theorem Inv.rouse (hI : Inv s) (hl : s.lock q = none) (chan : Nat) :
    Inv (s.setProc q ((s.proc q).rouse chan)) := by
  refine hI.poke hl ?_ (Forks.keep ?_ fun hu => by simp [Proc.rouse, hu])
  · by_cases hs : (s.proc q).state = .running
    · refine .inl ?_
      have : (s.proc q).rouse chan = s.proc q := by simp [Proc.rouse, hs]
      rw [this]; exact .refl _
    · refine .inr ⟨hs, (hI.off q fun c hc => ?_).rouse chan⟩
      exact hI.nobody hl hs c (Where.cares_of_has hc)
  · unfold Proc.rouse; split <;> rfl

theorem Parked.hit (hx : Parked x) : Parked x.hit := by
  unfold Proc.hit
  obtain ⟨hp, hs⟩ := hx
  by_cases h : x.state = .sleeping
  · rw [h] at hp
    obtain ⟨lk, hpc⟩ := hp
    exact ⟨by simp only [h, if_true, hpc]; trivial, fun _ => hs (by rw [h]; simp)⟩
  · simp only [h, if_false]
    exact ⟨hp, hs⟩

section
variable (hI : Inv s)
include hI

/-- `kill` at a slot whose lock is free. -/
theorem Inv.hit (hl : s.lock q = none) : Inv (s.setProc q (s.proc q).hit) := by
  refine hI.poke hl ?_ (Forks.keep rfl fun hu => by simp [Proc.hit, hu])
  by_cases hs : (s.proc q).state = .running
  · exact .inl ⟨by simp [Proc.hit, hs], rfl, rfl, rfl⟩
  · refine .inr ⟨hs, (hI.off q fun c hc => ?_).hit⟩
    exact hI.nobody hl hs c (Where.cares_of_has hc)

/-- `freeproc` in `wait`, or at the end of a `fork` that fails. -/
theorem Inv.free (hl : s.lock q = none)
    (hs : (s.proc q).state = .zombie ∨ (s.proc q).state = .unused) :
    Inv (s.setProc q (s.proc q).free) := by
  have hrun : (s.proc q).state ≠ .running := by rcases hs with h | h <;> rw [h] <;> simp
  have hoff := hI.off q fun c hc => hI.nobody hl hrun c (Where.cares_of_has hc)
  have hpc : (s.proc q).pc = .resumed .exit := by
    have := hoff.parks
    rcases hs with h | h <;> rwa [h] at this
  refine hI.poke hl (.inr ⟨hrun, hpc, absurd rfl⟩) (Forks.keep rfl fun hu => ?_)
  rcases hs with h | h <;> rw [h] at hu <;> cases hu

/-- `allocproc` at a free slot. -/
theorem Inv.hatch (hl : s.lock np = none) (hu : (s.proc np).state = .unused)
    (pid : Int32) : Inv (s.setProc np ((s.proc np).hatch Y np pid)) := by
  refine hI.poke hl (.inr ⟨by rw [hu]; simp, rfl, fun _ => rfl⟩) ⟨nofun, fun h => ?_⟩
  rw [hu] at h; cases h

/-- The end of a `fork`: the child, which nobody else has looked at, is RUNNABLE. -/
theorem Inv.forkSet (h : On s c p (.op (.forkSet np))) (hl : s.lock np = none) :
    Inv ((s.setProc np { s.proc np with state := .runnable }).goto p (.op .run)) := by
  have hused : (s.proc np).state = .used := hI.born p np (by rw [h.pc]; rfl)
  have hne : p ≠ np := by
    rintro rfl
    rw [hI.open_running h] at hused; cases hused
  have hoff : Parked (s.proc np) := hI.off np fun d hd =>
    hI.nobody hl (by rw [hused]; simp) d (Where.cares_of_has hd)
  have hpark := hoff.parks
  rw [hused] at hpark
  -- first the thread of the parent goes on, so that the child is in no `fork` any more
  have h₁ : Inv (s.goto p (.op .run)) := hI.walk h rfl
  have hnp : (s.goto p (.op .run)).proc np = s.proc np := goto_ne s _ hne.symm
  have hp : (s.goto p (.op .run)).proc p = { s.proc p with pc := .op .run } := goto_self s p _
  have h₂ : Inv ((s.goto p (.op .run)).setProc np { s.proc np with state := .runnable }) := by
    refine h₁.poke hl (.inr ⟨by rw [hnp, hused]; simp, ?_,
      fun _ => hoff.saved (by rw [hused]; simp)⟩)
      ⟨fun q hq => .inl (by rwa [hnp]), fun _ => .inr fun q hq => ?_⟩
    · show PC.resumes (s.proc np).pc
      rw [hpark]; trivial
    · by_cases hqp : q = p
      · subst hqp; rw [hp] at hq; cases hq
      · rw [goto_ne _ _ hqp] at hq
        exact hqp (hI.sole q p np hq (by rw [h.pc]; rfl))
  have heq : (s.setProc np { s.proc np with state := .runnable }).goto p (.op .run) =
      (s.goto p (.op .run)).setProc np { s.proc np with state := .runnable } := by
    simp only [Sys.goto, Sys.setProc, update_of_ne hne]
    rw [update_comm hne.symm]
  rwa [heq]

/-- `allocproc` has come to a free slot. -/
theorem Inv.alloc {ok : Bool} (h : On s c p (.op (.forkScan np)))
    (hl : s.lock np = none) (hu : (s.proc np).state = .unused) : Inv (alloc Y s p np ok) := by
  have hne : p ≠ np := by
    rintro rfl
    rw [hI.open_running h] at hu; cases hu
  have hI' : Inv { s with nextpid := s.nextpid + 1 } := hI.congr rfl rfl rfl
  cases ok with
  | true =>
    have h₁ := hI'.hatch (Y := Y) hl hu s.nextpid
    have hnp : ({ s with nextpid := s.nextpid + 1 }.setProc np
        ((s.proc np).hatch Y np s.nextpid)).proc np = (s.proc np).hatch Y np s.nextpid :=
      setProc_self _ np _
    have hp : ({ s with nextpid := s.nextpid + 1 }.setProc np
        ((s.proc np).hatch Y np s.nextpid)).proc p = s.proc p := setProc_ne _ _ hne
    refine h₁.thread
      ⟨fun _ _ => rfl, fun _ h => update_of_ne h _ _, fun _ _ => rfl⟩
      (update_self p _ _) h.pos h.pos rfl (.keep rfl ?_) ?_ fun np' hnp' => ?_
    · rw [hp, h.pc]; rfl
    · rw [hp]; exact hI.open_running h
    · obtain rfl : np = np' := by simpa [PC.child, Open.child] using hnp'
      refine .inr ⟨hne.symm, by rw [hnp]; rfl, fun q hq => ?_⟩
      -- a slot that was UNUSED is in no `fork`
      by_cases hqn : q = np
      · subst hqn; rw [hnp] at hq; cases hq
      · rw [setProc_ne _ _ hqn] at hq
        have := hI.born q np hq
        rw [hu] at this; cases this
  | false =>
    have h₁ := hI'.free hl (.inr hu)
    have hp : ({ s with nextpid := s.nextpid + 1 }.setProc np (s.proc np).free).proc p = s.proc p :=
      setProc_ne _ _ hne
    exact h₁.walk ⟨h.pos, by rw [hp]; exact h.pc⟩ rfl

/-! ## The scheduler's thread -/

section
variable (hv : (s.cpu c).pos = v)
include hv

/-- CPU `c` moves between points with the same process and the same lock. -/
theorem Inv.cpuMove (hhas : ∀ q, k.pos.has q ↔ v.has q)
    (hholds : ∀ q, k.pos.holds q (s.proc q).pc ↔ v.holds q (s.proc q).pc)
    (hproc : ∀ q, k.proc = some q ↔ k.pos.knows q) (hok : CpuOk s.proc k) : Inv (s.setCpu c k) := by
  subst hv
  have hcpu : ∀ P : Fin M → Cpu N → Prop, P c k → (∀ d, d ≠ c → P d (s.cpu d)) →
      ∀ d, P d ((s.setCpu c k).cpu d) := fun P h h' => (forall_update_iff s.cpu P).mpr ⟨h, h'⟩
  have hhas' : ∀ d q, ((s.setCpu c k).cpu d).pos.has q ↔ (s.cpu d).pos.has q :=
    hcpu (fun d x => ∀ q, x.pos.has q ↔ (s.cpu d).pos.has q) hhas fun _ _ _ => Iff.rfl
  exact
    { lock := hcpu (fun d x => ∀ q, s.lock q = some d ↔ x.pos.holds q (s.proc q).pc)
        (fun q => (hI.lock c q).trans (hholds q).symm) fun d _ => hI.lock d
      uniq := fun d e q hd he => hI.uniq d e q ((hhas' d q).mp hd) ((hhas' e q).mp he)
      proc := hcpu (fun _ x => ∀ q, x.proc = some q ↔ x.pos.knows q) hproc fun d _ => hI.proc d
      cpu := hcpu (fun _ x => CpuOk s.proc x) hok fun d _ => hI.cpu d
      off := fun q hq => hI.off q fun d hd => hq d ((hhas' d q).mpr hd)
      born := hI.born
      sole := hI.sole }

/-- The same, when only the point changes. -/
theorem Inv.cpuAt (hhas : ∀ q, w.has q ↔ v.has q)
    (hholds : ∀ q, w.holds q (s.proc q).pc ↔ v.holds q (s.proc q).pc)
    (hknows : ∀ q, w.knows q ↔ v.knows q)
    (hok : CpuOk s.proc { s.cpu c with pos := w }) : Inv (s.cpuAt c w) :=
  hI.cpuMove hv hhas hholds (fun q => (hI.procAt hv q).trans (hknows q).symm) hok

/-- CPU `c` takes or releases the lock of `p`, which it does not have. -/
theorem Inv.lockMove {l : Option (Fin M)}
    (hab : ∀ q, v.about q → q = p) (hab' : ∀ q, w.about q → q = p) (hhas : ¬ v.has p)
    (hhas' : ¬ w.has p) (hl : l = some c ↔ w.holds p (s.proc p).pc)
    (hl' : ∀ d, d ≠ c → (l = some d ↔ s.lock p = some d)) (hknows : ∀ q, w.knows q ↔ v.knows q)
    (hok : CpuOk s.proc { s.cpu c with pos := w }) : Inv ((s.setLock p l).cpuAt c w) := by
  have hlp : ((s.setLock p l).cpuAt c w).lock p = l := update_self p _ s.lock
  have F : Frame s ((s.setLock p l).cpuAt c w) c p :=
    ⟨fun d hd => setCpu_ne _ _ hd, fun _ _ => rfl, fun q hq => update_of_ne hq _ _⟩
  refine hI.about F hv (cpuAt_self _ c w) rfl hab hab' (by rwa [hlp]) (by rwa [hlp])
    (.inl (.refl _)) (fun h => absurd h hhas') (fun q => (hI.procAt hv q).trans (hknows q).symm) hok
    (fun _ hno => hI.off p fun d hd => ?_) (Forks.keep rfl id)
  by_cases hdc : d = c
  · subst hdc; exact hhas (hv ▸ hd)
  · exact hno d hdc hd

end

/-- With the lock of a RUNNABLE process in hand, it is on no CPU. -/
theorem Inv.off_of_runnable (hl : s.lock p = some c) (hhas : ¬ (s.cpu c).pos.has p)
    (hs : (s.proc p).state = .runnable) (d : Fin M) : ¬ (s.cpu d).pos.has p := by
  intro hd
  have hdc : d ≠ c := by rintro rfl; exact hhas hd
  have hno : ¬ (s.cpu d).pos.holds p (s.proc p).pc := fun h => by
    have := (hI.lock d p).mpr h
    rw [hl] at this
    exact hdc (Option.some.inj this).symm
  rcases Where.holds_of_cares (Where.cares_of_has hd) with hh | hr
  · exact hno (hh _)
  · rw [hr] at hno
    have := (hI.running hr).running (by simpa [Where.holds] using hno)
    rw [hs] at this; cases this

theorem Inv.setRunning (h : (s.cpu c).pos = .setRunning p) :
    Inv ((s.setProc p { s.proc p with state := .running }).cpuAt c (.setProc p)) := by
  have hls : s.lock p = some c := (hI.lockAt h).mpr rfl
  have hst : (s.proc p).state = .runnable := hI.okAt h
  have hno := hI.off_of_runnable hls (by rw [h]; exact id) hst
  have hpark := hI.off p hno
  have hres : (s.proc p).pc.resumes := by have := hpark.parks; rwa [hst] at this
  have hpp := setProc_self s p { s.proc p with state := .running }
  refine hI.about
    ⟨fun d hd => setCpu_ne _ _ hd, fun q hq => setProc_ne _ _ hq, fun _ _ => rfl⟩ h (cpuAt_self _ c _)
    hpp (fun _ => Eq.symm) (fun _ => Eq.symm) (iff_of_true hls rfl) (fun d _ => Iff.rfl)
    (.inr fun d hd hcares => ?_) (fun _ d _ => hno d) (hI.procAt h :) ?_ (absurd rfl)
    (Forks.keep rfl fun _ => ?_)
  · rcases Where.holds_of_cares hcares with hh | hr
    · have := (hI.lock d p).mpr (hh _)
      rw [hls] at this
      exact hd (Option.some.inj this).symm
    · exact hno d (by rw [hr]; rfl)
  · show Chosen ((s.setProc p { s.proc p with state := .running }).proc p)
    rw [hpp]
    exact ⟨rfl, hres, hpark.saved (by rw [hst]; simp)⟩
  · rename_i hu
    rw [hst] at hu; cases hu

/-- The scheduler is back, and forgets the process. -/
theorem Inv.clear (h : (s.cpu c).pos = .back p) :
    Inv (s.setCpu c { s.cpu c with proc := none, pos := .release p }) :=
  hI.about ⟨fun _ hd => setCpu_ne _ _ hd, fun _ _ => rfl, fun _ _ => rfl⟩ h (setCpu_self s c _) rfl
    (fun _ => Eq.symm) (fun _ => Eq.symm) (iff_of_true ((hI.lockAt h).mpr rfl) rfl) (fun _ _ => Iff.rfl)
    (.inl (.refl _)) False.elim (fun _ => ⟨nofun, False.elim⟩) trivial (fun _ _ => hI.okAt h)
    (Forks.keep rfl id)

end

theorem Ret.parks {k : Ret N L} (h : k.fits st) : (PC.resumed k).parks st := by
  cases k with
  | yield r => rw [show st = .runnable from h]; trivial
  | sleep lk => rw [show st = .sleeping from h]; exact ⟨lk, rfl⟩
  | exit => rw [show st = .zombie from h]; rfl

/-- `swtch` has loaded the scheduler's registers. -/
theorem Inv.leave (hI : Inv s) {k : Ret N L} (h : On s c p (.load i k)) :
    Inv ((s.cpuAt c (.back p)).goto p (.resumed k)) := by
  have hrun := hI.runAt h
  have hhas : (s.cpu c).pos.has p := by rw [h.pos]; rfl
  have hls : s.lock p = some c := (hI.lockAt h.pos).mpr (by rw [h.pc]; exact ⟨rfl, rfl⟩)
  have hpp := goto_self (s.cpuAt c (.back p)) p (.resumed k)
  have hpark : Parked { s.proc p with pc := .resumed k } := ⟨Ret.parks hrun.1, fun _ => hrun.2⟩
  refine hI.about ⟨fun d hd => setCpu_ne _ _ hd, fun q hq => setProc_ne _ _ hq, fun _ _ => rfl⟩ h.pos
    (cpuAt_self s c _) hpp (fun _ => Eq.symm) (fun _ => Eq.symm) (iff_of_true hls rfl)
    (fun d _ => Iff.rfl) (.inr fun d hd => hI.mine hhas hd)
    (fun _ d hd hh => hd (hI.uniq d c p hh hhas)) (hI.procAt h.pos :) ?_ (fun _ _ => hpark)
    (Forks.keep ?_ fun hu => absurd hu (hI.running h.pos).ne_used)
  · show Parked (((s.cpuAt c (.back p)).goto p (.resumed k)).proc p)
    rwa [hpp]
  · rw [h.pc]; rfl

/-! ## One step, and every run -/

theorem RunOk.work (h : RunOk k x) (r : Regs) (hr : ∀ i j, x.pc ≠ .save i j) :
    RunOk { k with regs := r } x := by
  unfold RunOk at *
  cases hpc : x.pc with
  | save i j => exact absurd hpc (hr i j)
  | resumed k => rw [hpc] at h; cases k <;> exact h
  | _ => rwa [hpc] at h

theorem CpuOk.work {x : Fin N → Proc N L} (h : CpuOk x k) (r : Regs)
    (hs : ∀ p i, k.pos ≠ .load p i) (hr : ∀ p, k.pos = .running p → ∀ i j, (x p).pc ≠ .save i j) :
    CpuOk x { k with regs := r } := by
  unfold CpuOk at *
  cases hpos : k.pos with
  | load p i => exact absurd hpos (hs p i)
  | running p => rw [hpos] at h; exact RunOk.work h r (hr p hpos)
  | _ => rwa [hpos] at h

theorem Inv.work (hI : Inv s) (hs : s.switching c = false) (r : Regs) :
    Inv (s.setCpu c { s.cpu c with regs := r }) := by
  refine hI.cpuMove rfl (fun q => Iff.rfl) (fun q => Iff.rfl) (hI.proc c)
    ((hI.cpu c).work r (fun p i hp => ?_) (fun p hp i j hpc => ?_))
  · simp [Sys.switching, hp] at hs
  · simp [Sys.switching, hp, hpc] at hs

theorem lt_of_ne_last {n : Nat} {hi : i < n} {j : Fin n} (hj : (j : Nat) < i + 1)
    (hne : j ≠ ⟨i, hi⟩) : (j : Nat) < i := by
  have : (j : Nat) ≠ i := fun h => hne (Fin.ext h)
  omega

theorem Inv.step {a : Act M N L} (hI : Inv s) (hn : Next Y s a t) : Inv t := by
  -- points of the scheduler that have to do with no process
  have hidle : ∀ {c : Fin M} {v w : Where N}, (s.cpu c).pos = v → (∀ q, ¬ v.about q) →
      (∀ q, ¬ v.knows q) → (∀ q, ¬ w.about q) → (∀ q, ¬ w.knows q) → Inv (s.cpuAt c w) := by
    intro c v w hv h hk h' hk'
    have hno : ∀ {v : Where N}, (∀ q, ¬ v.about q) → ∀ q, ¬ v.has q := fun hv q hq =>
      hv q (Where.about_of_cares (Where.cares_of_has hq))
    refine hI.cpuAt hv (fun q => iff_of_false (hno h' q) (hno h q))
      (fun q => iff_of_false (fun hh => h' q (Where.about_of_holds hh))
        fun hh => h q (Where.about_of_holds hh))
      (fun q => iff_of_false (hk' q) (hk q)) ?_
    cases w <;> first | trivial | exact absurd rfl (h' _)
  cases hn with
  | rescan h _ | wakeSkip h | wakeEnd h | intr h =>
    exact hidle h (fun _ => id) (fun _ => id) (fun _ => id) fun _ => id
  | @lockProc c p h hl =>
    refine hI.lockMove h (fun q hq => hq.elim) (fun _ => Eq.symm) id id (iff_of_true rfl rfl)
      (fun d hd => ?_) (fun q => Iff.rfl) trivial
    rw [hl]; simp [Ne.symm hd]
  | choose h hs => exact hI.cpuAt h (fun _ => Iff.rfl) (fun _ => Iff.rfl) (fun _ => Iff.rfl) hs
  | pass h => exact hI.cpuAt h (fun _ => Iff.rfl) (fun _ => Iff.rfl) (fun _ => Iff.rfl) trivial
  | setRunning h => exact hI.setRunning h
  | @setProc c p h =>
    exact hI.cpuMove h (fun _ => Iff.rfl) (fun _ => Iff.rfl)
      (fun q => ⟨Option.some.inj, congrArg some⟩) (hI.okAt h)
  | @saveSched c p i h hi =>
    exact hI.cpuMove h (fun _ => Iff.rfl) (fun _ => Iff.rfl) (hI.procAt h :) (hI.okAt h :)
  | @savedSched c p i h =>
    exact hI.cpuAt h (fun _ => Iff.rfl) (fun _ => Iff.rfl) (fun _ => Iff.rfl)
      ⟨hI.okAt h, fun j hj => absurd hj (Nat.not_lt_zero _)⟩
  | @loadProc c p i h hi =>
    obtain ⟨hch, hregs⟩ := hI.okAt h
    refine hI.cpuMove h (fun _ => Iff.rfl) (fun _ => Iff.rfl) (hI.procAt h :) ⟨hch, fun j hj => ?_⟩
    by_cases hji : j = ⟨i, hi⟩
    · subst hji; simp [hch.saved]
    · have := hregs j (lt_of_ne_last hj hji)
      simpa [hji] using this
  | @enter c p i h hi =>
    have hok := hI.okAt h
    have hrun : RunOk { s.cpu c with pos := .running p } (s.proc p) := by
      unfold RunOk
      rcases hok.1.pc.child_or with hpc | ⟨r, hpc⟩ | ⟨lk, hpc⟩ <;> rw [hpc] <;> exact hok.1.state
    have hlk : (s.proc p).pc.locked = true := by
      rcases hok.1.pc.child_or with hpc | ⟨r, hpc⟩ | ⟨lk, hpc⟩ <;> rw [hpc] <;> rfl
    exact hI.cpuAt h (fun _ => Iff.rfl)
      (fun q => ⟨fun hq => hq.1, fun hq => ⟨hq, hq ▸ hlk⟩⟩) (fun _ => Iff.rfl) hrun
  | clear h => exact hI.clear h
  | @releaseProc c p h =>
    refine hI.lockMove h (fun _ => Eq.symm) (fun q hq => hq.elim) id id ⟨nofun, False.elim⟩
      (fun d hd => ?_) (fun q => Iff.rfl) trivial
    rw [(hI.lockAt h).mpr rfl]; simp [Ne.symm hd]
  | @wake c chan ret q h hl =>
    exact (hI.rouse hl chan).cpuAt h (fun _ => Iff.rfl) (fun _ => Iff.rfl) (fun _ => Iff.rfl) trivial
  | work hs => exact hI.work hs _
  | walk _ h w => exact hI.walk h (by cases w <;> rfl)
  | @rouse c p chan q h hq hl =>
    have hne : p ≠ q := by
      rintro rfl
      exact hq ((hI.proc c p).mpr (by rw [h.pos]; rfl))
    exact (hI.rouse hl chan).walk ⟨h.pos, by rw [setProc_ne _ _ hne]; exact h.pc⟩ rfl
  | @hit c p pid q h hl =>
    refine (hI.hit hl).walk (o := .kill pid q) ⟨h.pos, ?_⟩ rfl
    by_cases hne : p = q
    · subst hne; rw [setProc_self]; exact h.pc
    · rw [setProc_ne _ _ hne]; exact h.pc
  | forkSet h hl => exact hI.forkSet h hl
  | relock h => exact (hI.congr (t := s.setLk _ _) rfl rfl rfl).walk ⟨h.pos, h.pc⟩ rfl
  | setLk => exact hI.congr rfl rfl rfl
  | reap _ hl hz => exact hI.free hl (.inl hz)
  | alloc h hl hu => exact hI.alloc h hl hu
  | timer h =>
    exact hI.set h.pos (by rw [h.pc]; rfl) (hI.open_running h) fun np hnp => by rwa [h.pc]
  | sleep h | exit h =>
    exact hI.set h.pos (by rw [h.pc]; rfl) (hI.open_running h) nofun
  | @take c p pc pc' h w hl =>
    have hst : (s.proc p).state = .running :=
      (hI.running h.pos).running (by rw [h.pc]; cases w <;> rfl)
    refine hI.thread
      ⟨fun _ _ => rfl, fun _ hq => setProc_ne _ _ hq, fun _ hq => update_of_ne hq _ _⟩
      (goto_self (s.setLock p (some c)) p pc') h.pos h.pos rfl
      (.take hl (update_self p _ s.lock) (by cases w <;> rfl)) ?_ fun np hnp => .inl ?_
    · unfold RunOk; cases w <;> exact hst
    · rw [h.pc]; cases w <;> exact hnp
  | @drop c p pc o h w =>
    have hrun := hI.runAt h
    refine hI.thread
      ⟨fun _ _ => rfl, fun _ hq => setProc_ne _ _ hq, fun _ hq => update_of_ne hq _ _⟩
      (goto_self (s.setLock p none) p (.op o)) h.pos h.pos rfl
      (.drop (by rw [h.pc]; cases w <;> rfl) (update_self p _ s.lock) rfl) ?_
      fun np hnp => .inl ?_
    · cases w <;> exact hrun
    · rw [h.pc]; cases w <;> exact hnp
  | yieldState h => exact hI.set h.pos (by rw [h.pc]; rfl) rfl fun np hnp => by rwa [h.pc]
  | @sleepRelease c p chan lk h =>
    exact (hI.congr (t := s.setLk lk none) rfl rfl rfl).set h.pos
      (by rw [show ((s.setLk lk none).proc p).pc = _ from h.pc]; rfl) (hI.runAt h :) nofun
  | @sleepChan c p chan lk h | @sleepTidy c p lk h =>
    exact hI.set h.pos (by rw [h.pc]; rfl) (hI.runAt h) nofun
  | sleepState h | exitState h =>
    exact hI.set h.pos (by rw [h.pc]; rfl) rfl nofun
  | @exitRelease c p lk h =>
    exact (hI.congr (t := s.setLk lk none) rfl rfl rfl).set h.pos
      (by rw [show ((s.setLk lk none).proc p).pc = _ from h.pc]; rfl) (hI.runAt h :) nofun
  | @sched c p k h =>
    exact hI.set h.pos (by rw [h.pc]; rfl)
      ⟨hI.runAt h, rfl, fun j hj => absurd hj (Nat.not_lt_zero _)⟩ fun np hnp => by rwa [h.pc]
  | @save c p i k h hi =>
    obtain ⟨hst, hregs, hsaved⟩ := hI.runAt h
    refine hI.set h.pos (by rw [h.pc]; rfl) ⟨hst, hregs, fun j hj => ?_⟩
      fun np hnp => by rwa [h.pc]
    by_cases hji : j = ⟨i, hi⟩
    · subst hji; simp [hregs]
    · have := hsaved j (lt_of_ne_last hj hji)
      simpa [hji] using this
  | @saved c p i k h hi =>
    have hrun := hI.runAt h
    exact hI.set h.pos (by rw [h.pc]; rfl)
      ⟨hrun.1, funext fun j => hrun.2.2 j (Nat.lt_of_lt_of_le j.isLt (Nat.not_lt.mp hi))⟩
      fun np hnp => by rwa [h.pc]
  | @load c p i k h hi =>
    set k' : Cpu N := { s.cpu c with
      regs := update (s.cpu c).regs ⟨i, hi⟩ ((s.cpu c).context ⟨i, hi⟩) }
    have hc : ((s.setCpu c k').goto p (.load (i + 1) k)).cpu c = k' := setCpu_self s c k'
    exact hI.thread
      ⟨fun _ hd => setCpu_ne s _ hd, fun _ hq => goto_ne _ _ hq, fun _ _ => rfl⟩
      (goto_self (s.setCpu c k') p _) h.pos (by rw [hc]; exact h.pos) (by rw [hc])
      (.keep rfl (by rw [h.pc]; rfl)) (hI.runAt h) fun np hnp => .inl (by rwa [h.pc])
  | leave h => exact hI.leave h

theorem inv_init (hi : Init s) : Inv s := by
  have hpos : ∀ c, (s.cpu c).pos = .scan 0 := fun c => (hi.cpu c).2
  have hchild : ∀ p, (s.proc p).pc.child = none := by
    intro p
    by_cases hp : p = s.initproc
    · subst hp; rw [hi.initPc]; rfl
    · rw [hi.pc p hp]; rfl
  refine ⟨fun c p => ?_, fun c d p h => ?_, fun c p => ?_, fun c => ?_, fun p _ => ?_,
    fun p np h => ?_, fun p q np h => ?_⟩
  · rw [hi.lock, hpos]; exact ⟨nofun, False.elim⟩
  · rw [hpos] at h; exact h.elim
  · rw [(hi.cpu c).1, hpos]; exact ⟨nofun, False.elim⟩
  · rw [CpuOk, hpos]; trivial
  · by_cases hp : p = s.initproc
    · subst hp
      exact ⟨by rw [hi.runnable, hi.initPc]; trivial, fun _ => hi.initContext⟩
    · exact ⟨by rw [hi.unused p hp]; exact hi.pc p hp, fun h => absurd (hi.unused p hp) h⟩
  · rw [hchild] at h; cases h
  · rw [hchild] at h; cases h

end

theorem inv_run {Y : Layout N} {h : List (Sys M N L × Act M N L)} {s : Sys M N L}
    (r : Run Init (step Y) h s) : Inv s :=
  r.inv (fun _ hi => inv_init hi) fun _ _ _ hI hst => hI.step (next_of_step hst)

/-- The scheduler of CPU `c` has decided to switch to `p`, or is doing so. -/
def SwitchingTo (s : Sys M N L) (c : Fin M) (p : Fin N) : Prop :=
  match (s.cpu c).pos with
  | .setRunning q | .setProc q | .save q _ | .load q _ => q = p
  | _ => False

/-- In every state of every run: with `p->lock` free, `p` is RUNNING exactly when
one CPU has it as `c->proc`; no two CPUs execute one process; and a process that
a CPU is switching to has its registers saved completely and is neither ZOMBIE
nor UNUSED. -/
theorem one_cpu_per_process {Y : Layout N} {h : List (Sys M N L × Act M N L)} {s : Sys M N L}
    (r : Run Init (step Y) h s) (p : Fin N) :
    (s.lock p = none → ((s.proc p).state = .running ↔ ∃! c, (s.cpu c).proc = some p)) ∧
    (∀ c d, (s.cpu c).pos = .running p → (s.cpu d).pos = .running p → c = d) ∧
    ∀ c, SwitchingTo s c p → (s.proc p).context = (s.proc p).saved ∧
      (s.proc p).state ≠ .zombie ∧ (s.proc p).state ≠ .unused := by
  have hI := inv_run r
  refine ⟨fun hl => ⟨fun hs => ?_, ?_⟩, fun c d hc hd => ?_, fun c hc => ?_⟩
  · -- somebody has `p`, and without the lock that is its own thread
    obtain ⟨c, hc⟩ : ∃ c, (s.cpu c).pos.has p := by
      by_contra hno
      have := (hI.off p fun c hc => hno ⟨c, hc⟩).parks
      rwa [hs] at this
    have hpos : (s.cpu c).pos = .running p := by
      rcases Where.holds_of_cares (Where.cares_of_has hc) with hh | hr
      · rw [(hI.lock c p).mpr (hh _)] at hl; cases hl
      · exact hr
    refine ⟨c, (hI.proc c p).mpr (by rw [hpos]; rfl), fun d hd => ?_⟩
    exact hI.uniq d c p (Where.has_of_knows ((hI.proc d p).mp hd)) hc
  · rintro ⟨c, hc, -⟩
    have hknows := (hI.proc c p).mp hc
    rcases Where.holds_of_cares (Where.cares_of_has (Where.has_of_knows hknows)) with hh | hr
    · rw [(hI.lock c p).mpr (hh _)] at hl; cases hl
    · refine (hI.running hr).running ?_
      by_contra hlk
      rw [(hI.lock c p).mpr (by rw [hr]; exact ⟨rfl, by simpa using hlk⟩)] at hl; cases hl
  · exact hI.uniq c d p (by rw [hc]; rfl) (by rw [hd]; rfl)
  · have hok := hI.cpu c
    have hchosen : Chosen (s.proc p) → (s.proc p).context = (s.proc p).saved ∧
        (s.proc p).state ≠ .zombie ∧ (s.proc p).state ≠ .unused := fun h =>
      ⟨h.saved, by rw [h.state]; simp, by rw [h.state]; simp⟩
    unfold SwitchingTo at hc
    unfold CpuOk at hok
    cases hpos : (s.cpu c).pos with
    | setRunning q =>
      rw [hpos] at hc hok
      obtain rfl : q = p := hc
      have hpark := hI.off q (hI.off_of_runnable ((hI.lock c q).mpr (by rw [hpos]; rfl))
        (by rw [hpos]; exact id) hok)
      exact ⟨hpark.saved (by rw [hok]; simp), by rw [hok]; simp, by rw [hok]; simp⟩
    | setProc q | save q i => rw [hpos] at hc hok; obtain rfl : q = p := hc; exact hchosen hok
    | load q i => rw [hpos] at hc hok; obtain rfl : q = p := hc; exact hchosen hok.1
    | _ => rw [hpos] at hc; exact hc.elim

/-- Two CPUs, two slots, one lock for `sleep`; init is RUNNABLE. -/
def booted : Sys 2 2 1 where
  proc p :=
    if p = 0 then ⟨.runnable, none, false, 1, fun _ => 0, .forkret, fun _ => 0⟩
    else ⟨.unused, none, false, 0, fun _ => 0, .resumed .exit, fun _ => 0⟩
  cpu _ := ⟨none, fun _ => 0, fun _ => 0, .scan 0⟩
  lock _ := none
  lk _ := none
  nextpid := 2
  initproc := 0

def layout : Layout 2 := ⟨0x80001000, fun p => 0x3fffffd000 - 0x2000 * UInt64.ofNat p⟩

theorem booted_init : Init booted where
  cpu _ := ⟨rfl, rfl⟩
  lock _ := rfl
  lk _ := rfl
  runnable := rfl
  initPc := rfl
  initContext := rfl
  unused := by decide
  pc := by decide

/-- CPU 0 switches to init, which leaves `forkret`. -/
def firstRun : List (Act 2 2 1) := List.replicate 35 (.tick 0)

set_option maxRecDepth 20000 in
theorem one_cpu_per_process_firstRun : ∃ (h : List (Sys 2 2 1 × Act 2 2 1)) (s : Sys 2 2 1),
    Run Init (step layout) h s ∧ s.lock 0 = none ∧ (s.proc 0).state = .running ∧
    (s.cpu 0).pos = .running 0 ∧ ∃! c, (s.cpu c).proc = some 0 := by
  have hview : (exec (step layout) booted firstRun).map (fun s =>
      (s.lock 0, (s.proc 0).state, (s.cpu 0).pos)) = some (none, .running, .running 0) := by
    decide +kernel
  obtain ⟨s, r, hs⟩ := run_of_exec booted_init hview
  simp only [Prod.mk.injEq] at hs
  obtain ⟨hl, hst, hpos⟩ := hs
  exact ⟨_, s, r, hl, hst, hpos, ((one_cpu_per_process r 0).1 hl).mp hst⟩

end Xv6.Sched
