/-
# `Xv6.Procs.Family` — parents, zombies, and who gets an exit status

Every allocated process but init has a parent that is neither UNUSED nor a
ZOMBIE: the process that created it, or init once that process has exited.  A
ZOMBIE keeps its slot, pid and status until its parent's `wait` takes it, and
no process is taken twice.

The invariant has three parts.  Control: who holds `wait_lock`, and which
program points go with which `p->state`.  Family: what `parent`, `creator` and
`uid` say about each other, and what a process that scans the table for its
children under `wait_lock` has already excluded (`Scanned`).  History: the exits
and the deliveries so far, as lists of `(uid, pid, status)` read off the run.

A parent pointer is a slot address and slots are reused.  What makes it safe is
that a process leaves no child behind when it becomes a ZOMBIE: `reparent` has
swept the whole table under `wait_lock`, and only the holder of `wait_lock`
makes anybody a child.
-/
import Xv6.Lib.Run
import Xv6.Procs.Machine

namespace Xv6.Procs

open Machine List

variable {N : Nat} {pc : PC N} {st : ProcState} {l : Option (Fin N)} {n : Nat}

/-! ## Program points -/

/-- Holding `wait_lock`. -/
def PC.holds : PC N → Bool
  | .reparent _ _ | .wakeInit _ _ _ | .wakeParent _ _ | .exitZombie _ => true
  | .waitScan _ _ _ | .waitTest _ _ | .waitSleep _ => true
  | _ => false

/-- In `exit`, under `wait_lock`. -/
def PC.exiting : PC N → Bool
  | .reparent _ _ | .wakeInit _ _ _ | .wakeParent _ _ | .exitZombie _ => true
  | _ => false

/-- Off the CPU for good. -/
def PC.gone : PC N → Bool
  | .exitSched | .dead => true
  | _ => false

/-- Anywhere in `exit`, or past it. -/
def PC.leaving : PC N → Bool
  | .exitLock _ | .reparent _ _ | .wakeInit _ _ _ | .wakeParent _ _ | .exitZombie _ => true
  | .exitSched | .dead => true
  | _ => false

/-- The child a `fork` in progress is about to publish. -/
def PC.child : PC N → Option (Fin N)
  | .forkParent np | .forkRunnable np => some np
  | _ => none

/-- The states in which a process can be at a program point. -/
def PC.allows : PC N → ProcState → Prop
  | .user, st => st = .running ∨ st = .runnable ∨ st = .used
  | .dead, st => st = .unused ∨ st = .zombie
  | .exitSched, st => st = .zombie
  | .asleep _, st | .blocked, st => st = .sleeping ∨ st = .runnable
  | .reparent _ _, st | .wakeInit _ _ _, st | .wakeParent _ _, st | .exitZombie _, st => st = .running
  | .waitScan _ _ _, st | .waitTest _ _, st | .waitSleep _, st => st = .running
  | _, st => st = .running ∨ st = .runnable

theorem PC.gone_of_zombie (h : pc.allows .zombie) : pc.gone = true := by
  cases pc <;> simp_all [PC.allows, PC.gone]

theorem PC.dead_of_unused (h : pc.allows .unused) : pc = .dead := by
  cases pc <;> simp_all [PC.allows]

theorem PC.user_of_used (h : pc.allows .used) : pc = .user := by
  cases pc <;> simp_all [PC.allows]

theorem PC.not_gone_of_running (h : pc.allows .running) : pc.gone = false := by
  cases pc <;> simp_all [PC.allows, PC.gone]

/-- UNUSED, USED, ZOMBIE, and the three states of a live process as one. -/
inductive Stage
  | unused
  | used
  | alive
  | zombie
  deriving DecidableEq

def stage : ProcState → Stage
  | .unused => .unused
  | .used => .used
  | .sleeping | .runnable | .running => .alive
  | .zombie => .zombie

theorem stage_eq_unused : stage st = .unused ↔ st = .unused := by
  cases st <;> simp [stage]

theorem stage_eq_used : stage st = .used ↔ st = .used := by
  cases st <;> simp [stage]

theorem stage_eq_zombie : stage st = .zombie ↔ st = .zombie := by
  cases st <;> simp [stage]

/-! ## The invariant -/

/-- An exit or a delivery: uid, pid, status. -/
abbrev Entry := Nat × Int32 × Int32

/-- `p` has looked at the slots before `j` and none of them is its child. -/
def NoChildBelow (s : Sys N) (p : Fin N) (j : Nat) : Prop :=
  ∀ q : Fin N, (q : Nat) < j → (s.proc q).parent ≠ some p

/-- What a process in the middle of a scan has excluded. -/
def Scanned (s : Sys N) (p : Fin N) : PC N → Prop
  | .reparent _ j => NoChildBelow s p j
  | .wakeInit _ j _ => NoChildBelow s p (j + 1)
  | .wakeParent _ _ | .exitZombie _ => NoChildBelow s p N
  | .waitScan _ j havekids => havekids = false → NoChildBelow s p j
  | .waitTest _ havekids => havekids = false → NoChildBelow s p N
  | _ => True

/-- The process with serial number `u` has exited, or is in `exit` with
`wait_lock` held. -/
def Left (E : List Entry) (s : Sys N) (u : Nat) : Prop :=
  u ∈ E.map Prod.fst ∨ ∃ r, (s.proc r).uid = u ∧ (s.proc r).pc.exiting = true

/-- `p` is the rightful parent of `q`. -/
def Heir (E : List Entry) (s : Sys N) (q p : Fin N) : Prop :=
  (s.proc q).creator = some (s.proc p).uid ∨
    (p = s.initproc ∧ ∃ u, (s.proc q).creator = some u ∧ Left E s u)

structure Inv (E R : List Entry) (s : Sys N) : Prop where
  lock : ∀ p, s.waitLock = some p ↔ (s.proc p).pc.holds = true
  allows : ∀ p, (s.proc p).pc.allows (s.proc p).state
  init : (s.proc s.initproc).pc.leaving = false ∧ (s.proc s.initproc).state ≠ .used
  parentOf : ∀ q p, (s.proc q).parent = some p →
    (s.proc p).pc.gone = false ∧ Heir E s q p
  unused : ∀ q, (s.proc q).state = .unused → (s.proc q).parent = none
  scanned : ∀ p, Scanned s p (s.proc p).pc
  orphan : ∀ p, p ≠ s.initproc → stage (s.proc p).state = .alive ∨ (s.proc p).state = .zombie →
    (s.proc p).parent ≠ none
  born : ∀ p np, (s.proc p).pc.child = some np →
    (s.proc np).state = .used ∧ (s.proc np).creator = some (s.proc p).uid
  adopted : ∀ p np, (s.proc p).pc = .forkRunnable np → (s.proc np).parent = some p
  uidLt : ∀ p, (s.proc p).state ≠ .unused → (s.proc p).uid < s.nextuid
  uidInj : ∀ p q, (s.proc p).state ≠ .unused → (s.proc q).state ≠ .unused →
    (s.proc p).uid = (s.proc q).uid → p = q
  zombie : ∀ p, (s.proc p).state = .zombie →
    ((s.proc p).uid, (s.proc p).pid, (s.proc p).xstate) ∈ E
  exitOnce : (E.map Prod.fst).Nodup
  exited : ∀ e ∈ E, e.1 < s.nextuid ∧
    ∀ p, (s.proc p).state ≠ .unused → (s.proc p).uid = e.1 → (s.proc p).state = .zombie
  once : (R.map Prod.fst).Nodup
  reaped : ∀ r ∈ R, r ∈ E ∧ r.1 < s.nextuid ∧ ∀ p, (s.proc p).state ≠ .unused → (s.proc p).uid ≠ r.1

variable {s : Sys N} {x y : Proc N} {p q np : Fin N} {E R : List Entry}

theorem inv_init (h : Init s) : Inv [] [] s where
  lock p := by
    by_cases hp : p = s.initproc
    · subst hp; simp [h.waitLock, h.initPc, PC.holds]
    · simp [h.waitLock, h.pc p hp, PC.holds]
  allows p := by
    by_cases hp : p = s.initproc
    · subst hp; simp [h.initPc, h.runnable, PC.allows]
    · simp [h.pc p hp, h.unused p hp, PC.allows]
  init := by simp [h.initPc, h.runnable, PC.leaving]
  parentOf q p hq := by rw [h.parent q] at hq; cases hq
  unused q _ := h.parent q
  scanned p := by
    by_cases hp : p = s.initproc
    · subst hp; simp [h.initPc, Scanned]
    · simp [h.pc p hp, Scanned]
  orphan p hp hl := by simp [h.unused p hp, stage] at hl
  born p np hc := by
    by_cases hp : p = s.initproc
    · subst hp; simp [h.initPc, PC.child] at hc
    · simp [h.pc p hp, PC.child] at hc
  adopted p np hc := by
    by_cases hp : p = s.initproc
    · subst hp; simp [h.initPc] at hc
    · simp [h.pc p hp] at hc
  uidLt p hu := by
    by_cases hp : p = s.initproc
    · subst hp; simp [h.initUid, h.nextuid]
    · exact absurd (h.unused p hp) hu
  uidInj p q hp hq _ := by
    have hp' : p = s.initproc := by_contra fun hn => hp (h.unused p hn)
    have hq' : q = s.initproc := by_contra fun hn => hq (h.unused q hn)
    rw [hp', hq']
  zombie p hz := by
    by_cases hp : p = s.initproc
    · subst hp; rw [h.runnable] at hz; cases hz
    · rw [h.unused p hp] at hz; cases hz
  exitOnce := nodup_nil
  exited e he := absurd he not_mem_nil
  once := nodup_nil
  reaped r hr := absurd hr not_mem_nil

/-! ## What a single update keeps

`Same` collects the fields (pid and status of a ZOMBIE among them) that only
`allocproc`, `fork`, `reparent`, `exit` and `freeproc` write.  An update that keeps
them, and everybody's stage, can only disturb the control part and the mover's own
obligations. -/

structure Same (x y : Proc N) : Prop where
  parent : x.parent = y.parent
  uid : x.uid = y.uid
  creator : x.creator = y.creator
  pid : y.state = .zombie → x.pid = y.pid
  xstate : y.state = .zombie → x.xstate = y.xstate
  stage : stage x.state = stage y.state

theorem Same.of (h : (x.parent, x.uid, x.creator, x.pid, x.xstate) =
    (y.parent, y.uid, y.creator, y.pid, y.xstate))
    (hst : Procs.stage x.state = Procs.stage y.state) : Same x y := by
  simp only [Prod.mk.injEq] at h
  obtain ⟨hp, hu, hc, hpid, hx⟩ := h
  exact ⟨hp, hu, hc, fun _ => hpid, fun _ => hx, hst⟩

theorem Same.unused (h : Same x y) : x.state = .unused ↔ y.state = .unused := by
  rw [← stage_eq_unused, h.stage, stage_eq_unused]

theorem Same.used (h : Same x y) : x.state = .used ↔ y.state = .used := by
  rw [← stage_eq_used, h.stage, stage_eq_used]

theorem Same.zombie (h : Same x y) : x.state = .zombie ↔ y.state = .zombie := by
  rw [← stage_eq_zombie, h.stage, stage_eq_zombie]

theorem setProc_self (s : Sys N) (p : Fin N) (x : Proc N) : (s.setProc p x).proc p = x :=
  Function.update_self ..

theorem setProc_ne (s : Sys N) (x : Proc N) (h : q ≠ p) : (s.setProc p x).proc q = s.proc q :=
  Function.update_of_ne h ..

/-- A field that the new value of slot `q` keeps is the same in every slot. -/
theorem setProc_field {β : Type} (f : Proc N → β) (s : Sys N) (h : f x = f (s.proc q)) (p : Fin N) :
    f ((s.setProc q x).proc p) = f (s.proc p) := by
  by_cases hp : p = q
  · subst hp; rw [setProc_self, h]
  · rw [setProc_ne _ _ hp]

/-- A scan keeps what it knows while the process that scans gets no child. -/
theorem scanned_mono {t : Sys N}
    (h : pc.holds = true → ∀ q, (t.proc q).parent = some p → (s.proc q).parent = some p)
    (hs : Scanned s p pc) : Scanned t p pc := by
  have hn : pc.holds = true → ∀ j, NoChildBelow s p j → NoChildBelow t p j :=
    fun hh j hj q hq hpar => hj q hq (h hh q hpar)
  cases pc with
  | reparent _ j | wakeInit _ j _ | wakeParent _ _ | exitZombie _ => exact hn rfl _ hs
  | waitScan _ j hk | waitTest _ hk => exact fun hf => hn rfl _ (hs hf)
  | _ => trivial

/-- What has to be known of the new value `x` of slot `p`, when `wait_lock` is then `l` and
the next serial number `n`.  `E` are the exits before, `E'` those after. -/
structure Fits (E E' : List Entry) (s : Sys N) (p : Fin N) (x : Proc N) (l : Option (Fin N))
    (n : Nat) : Prop where
  lock : l = some p ↔ x.pc.holds = true
  lockOther : ∀ q, q ≠ p → (l = some q ↔ s.waitLock = some q)
  allows : x.pc.allows x.state
  init : p = s.initproc → x.pc.leaving = false ∧ x.state ≠ .used
  gone : x.pc.gone = true →
    (s.proc p).pc.gone = true ∨ x.parent = (s.proc p).parent ∧ ∀ q, (s.proc q).parent ≠ some p
  exiting : (s.proc p).pc.exiting = true →
    x.pc.exiting = true ∨ (s.proc p).uid ∈ E'.map Prod.fst
  parent : ∀ r, x.parent = some r → x.creator = (s.proc p).creator ∧
    ((s.proc p).parent = some r ∨ l ≠ some r ∧ (s.proc r).pc.gone = false ∧ Heir E s p r)
  unused : x.state = .unused → x.parent = none
  scanned : Scanned s p x.pc
  orphan : p ≠ s.initproc → stage x.state = .alive ∨ x.state = .zombie → x.parent ≠ none
  born : ∀ np, x.pc.child = some np →
    np ≠ p ∧ (s.proc np).state = .used ∧ (s.proc np).creator = some x.uid
  adopted : ∀ np, x.pc = .forkRunnable np → (s.proc np).parent = some p
  child : ∀ q, q ≠ p → (s.proc q).pc.child = some p →
    x.state = .used ∧ x.creator = (s.proc p).creator
  adoptee : ∀ q, q ≠ p → (s.proc q).pc = .forkRunnable p → x.parent = (s.proc p).parent
  uid : x.uid = (s.proc p).uid ∧ (x.state ≠ .unused → (s.proc p).state ≠ .unused) ∧ n = s.nextuid ∨
    (s.proc p).pc.gone = true ∧ x.uid = s.nextuid ∧ n = s.nextuid + 1
  zombie : x.state = .zombie → (x.uid, x.pid, x.xstate) ∈ E'
  stays : (s.proc p).state = .zombie → x.state = .zombie ∨ x.state = .unused

theorem PC.not_gone_of_exiting (h : pc.exiting = true) : pc.gone = false := by
  cases pc <;> simp_all [PC.exiting, PC.gone]

theorem PC.child_forkRunnable (h : pc = .forkRunnable np) : pc.child = some np := by
  rw [h]
  rfl

section
variable (hI : Inv E R s)
include hI

/-- One slot gets a new value.  An exit or a delivery that is new is that of its process. -/
theorem Inv.set {E' R' : List Entry}
    (hf : Fits E E' s p x l n) (hE : E ⊆ E') (hexits : ∀ e ∈ E', e ∈ E ∨
      e.1 = (s.proc p).uid ∧ (s.proc p).state ≠ .unused ∧ x.state = .zombie)
    (hexitOnce : (E'.map Prod.fst).Nodup) (hreaps : ∀ r ∈ R', r ∈ R ∨
      r ∈ E' ∧ r.1 = (s.proc p).uid ∧ (s.proc p).state ≠ .unused ∧ x.state = .unused)
    (honce : (R'.map Prod.fst).Nodup) :
    Inv E' R' ({ s with waitLock := l, nextuid := n }.setProc p x) := by
  set t : Sys N := { s with waitLock := l, nextuid := n }.setProc p x
  have hself : t.proc p = x := setProc_self _ p x
  have hne : ∀ q, q ≠ p → t.proc q = s.proc q := fun q hq => setProc_ne _ x hq
  have hn : s.nextuid ≤ n := by
    rcases hf.uid with ⟨-, -, h⟩ | ⟨-, -, h⟩ <;> omega
  have huid : ∀ q, (s.proc q).pc.gone = false → (t.proc q).uid = (s.proc q).uid := by
    intro q hq
    by_cases hqp : q = p
    · subst hqp
      rw [hself]
      rcases hf.uid with ⟨h, -⟩ | ⟨h, -⟩
      · exact h
      · rw [h] at hq; cases hq
    · rw [hne q hqp]
  have hlock : ∀ q, l = some q ↔ (t.proc q).pc.holds = true := by
    intro q
    by_cases hqp : q = p
    · subst hqp; rw [hself]; exact hf.lock
    · rw [hne q hqp, hf.lockOther q hqp]; exact hI.lock q
  have hleft : ∀ u, Left E s u → Left E' t u := by
    rintro u (hu | ⟨r, hr, he⟩)
    · exact .inl (map_subset Prod.fst hE hu)
    · have hru := huid r (PC.not_gone_of_exiting he)
      by_cases hrp : r = p
      · subst hrp
        rcases hf.exiting he with hx | hx
        · exact .inr ⟨r, hru.trans hr, by rwa [hself]⟩
        · exact .inl (hr ▸ hx)
      · exact .inr ⟨r, hru.trans hr, by rwa [hne r hrp]⟩
  -- where a parent pointer comes from
  have hparent : ∀ a b, (t.proc a).parent = some b → (t.proc a).creator = (s.proc a).creator ∧
      ((s.proc a).parent = some b ∨ l ≠ some b ∧ (s.proc b).pc.gone = false ∧ Heir E s a b) := by
    intro a b hab
    by_cases hap : a = p
    · subst hap; rw [hself] at hab ⊢; exact hf.parent b hab
    · rw [hne a hap] at hab ⊢; exact ⟨rfl, .inl hab⟩
  refine
    { lock := hlock, allows := fun q => ?_, init := ?_, parentOf := fun a b hab => ?_,
      unused := fun a ha => ?_, scanned := fun q => ?_, orphan := fun q hq hl => ?_,
      born := fun q np hc => ?_, adopted := fun q np hc => ?_, uidLt := fun q hq => ?_,
      uidInj := fun a b ha hb he => ?_, zombie := fun q hq => ?_, exitOnce := hexitOnce,
      exited := fun e he => ?_, once := honce, reaped := fun e he => ?_ }
  · by_cases hqp : q = p
    · subst hqp; rw [hself]; exact hf.allows
    · rw [hne q hqp]; exact hI.allows q
  · show (t.proc s.initproc).pc.leaving = false ∧ (t.proc s.initproc).state ≠ .used
    by_cases hip : s.initproc = p
    · rw [hip, hself]; exact hf.init hip.symm
    · rw [hne _ hip]; exact hI.init
  · obtain ⟨hcr, hfrom⟩ := hparent a b hab
    obtain ⟨hg, hh⟩ : (s.proc b).pc.gone = false ∧ Heir E s a b := by
      rcases hfrom with h | ⟨-, h⟩
      · exact hI.parentOf a b h
      · exact h
    refine ⟨?_, ?_⟩
    · by_cases hbp : b = p
      · subst hbp
        rw [hself]
        by_contra hgone
        rcases hf.gone (by simpa using hgone) with h | ⟨hsame, hnone⟩
        · rw [h] at hg; cases hg
        · by_cases hab' : a = b
          · subst hab'; rw [hself, hsame] at hab; exact hnone a hab
          · rw [hne a hab'] at hab; exact hnone a hab
      · rwa [hne b hbp]
    · rcases hh with h | ⟨hi, u, hu, hl⟩
      · exact .inl (by rwa [hcr, huid b hg])
      · exact .inr ⟨hi, u, by rwa [hcr], hleft u hl⟩
  · by_cases hap : a = p
    · subst hap; rw [hself] at ha ⊢; exact hf.unused ha
    · rw [hne a hap] at ha ⊢; exact hI.unused a ha
  · refine scanned_mono (s := s) (fun hh a ha => ?_) ?_
    · rcases (hparent a q ha).2 with h | ⟨h, -⟩
      · exact h
      · exact absurd ((hlock q).mpr hh) h
    · by_cases hqp : q = p
      · subst hqp; rw [hself]; exact hf.scanned
      · rw [hne q hqp]; exact hI.scanned q
  · by_cases hqp : q = p
    · subst hqp; rw [hself] at hl ⊢; exact hf.orphan hq hl
    · rw [hne q hqp] at hl ⊢; exact hI.orphan q hq hl
  · by_cases hqp : q = p
    · subst hqp
      rw [hself] at hc ⊢
      obtain ⟨hnp, h⟩ := hf.born np hc
      rwa [hne np hnp]
    · rw [hne q hqp] at hc ⊢
      obtain ⟨hst, hcr⟩ := hI.born q np hc
      by_cases hnp : np = p
      · subst hnp
        obtain ⟨h₁, h₂⟩ := hf.child q hqp hc
        rw [hself]; exact ⟨h₁, h₂.trans hcr⟩
      · rw [hne np hnp]; exact ⟨hst, hcr⟩
  · by_cases hqp : q = p
    · subst hqp
      rw [hself] at hc
      rw [hne np (hf.born np (PC.child_forkRunnable hc)).1]; exact hf.adopted np hc
    · rw [hne q hqp] at hc
      have had := hI.adopted q np hc
      by_cases hnp : np = p
      · subst hnp; rwa [hself, hf.adoptee q hqp hc]
      · rwa [hne np hnp]
  · show _ < n
    by_cases hqp : q = p
    · subst hqp
      rw [hself] at hq ⊢
      rcases hf.uid with ⟨hu, hst, -⟩ | ⟨-, hu, hn⟩
      · rw [hu]; exact (hI.uidLt q (hst hq)).trans_le hn
      · omega
    · rw [hne q hqp] at hq ⊢; exact (hI.uidLt q hq).trans_le hn
  · have hother : ∀ q, q ≠ p → (s.proc q).state ≠ .unused → x.state ≠ .unused →
        (s.proc q).uid ≠ x.uid := by
      intro q hqp hq hx hu
      rcases hf.uid with ⟨hxu, hst, -⟩ | ⟨-, hxu, -⟩
      · exact hqp (hI.uidInj q p hq (hst hx) (hu.trans hxu))
      · exact absurd (hu.trans hxu) (Nat.ne_of_lt (hI.uidLt q hq))
    by_cases hap : a = p <;> by_cases hbp : b = p
    · rw [hap, hbp]
    · subst hap
      rw [hself] at ha he
      rw [hne b hbp] at hb he
      exact absurd he.symm (hother b hbp hb ha)
    · subst hbp
      rw [hself] at hb he
      rw [hne a hap] at ha he
      exact absurd he (hother a hap ha hb)
    · rw [hne a hap] at ha he
      rw [hne b hbp] at hb he
      exact hI.uidInj a b ha hb he
  · by_cases hqp : q = p
    · subst hqp; rw [hself] at hq ⊢; exact hf.zombie hq
    · rw [hne q hqp] at hq ⊢; exact hE (hI.zombie q hq)
  · show e.1 < n ∧ _
    rcases hexits e he with he | ⟨hu, hst, hz⟩
    · obtain ⟨hlt, hz⟩ := hI.exited e he
      refine ⟨hlt.trans_le hn, fun q hq hqu => ?_⟩
      by_cases hqp : q = p
      · subst hqp
        rw [hself] at hq hqu ⊢
        rcases hf.uid with ⟨hxu, hst, -⟩ | ⟨-, hxu, -⟩
        · exact (hf.stays (hz q (hst hq) (hxu ▸ hqu))).resolve_right hq
        · omega
      · rw [hne q hqp] at hq hqu ⊢; exact hz q hq hqu
    · refine ⟨hu ▸ (hI.uidLt p hst).trans_le hn, fun q hq hqu => ?_⟩
      by_cases hqp : q = p
      · subst hqp; rwa [hself]
      · rw [hne q hqp] at hq hqu
        exact absurd (hI.uidInj q p hq hst (hqu.trans hu)) hqp
  · show e ∈ E' ∧ e.1 < n ∧ _
    rcases hreaps e he with he | ⟨hin, hu, hst, hx⟩
    · obtain ⟨hin, hlt, hfree⟩ := hI.reaped e he
      refine ⟨hE hin, hlt.trans_le hn, fun q hq => ?_⟩
      by_cases hqp : q = p
      · subst hqp
        rw [hself] at hq ⊢
        rcases hf.uid with ⟨hxu, hst, -⟩ | ⟨-, hxu, -⟩
        · rw [hxu]; exact hfree q (hst hq)
        · omega
      · rw [hne q hqp] at hq ⊢; exact hfree q hq
    · refine ⟨hin, hu ▸ (hI.uidLt p hst).trans_le hn, fun q hq hqu => ?_⟩
      by_cases hqp : q = p
      · subst hqp; rw [hself] at hq; exact hq hx
      · rw [hne q hqp] at hq hqu
        exact hqp (hI.uidInj q p hq hst (hqu.trans hu))

/-- Nobody exits and nobody is delivered. -/
theorem Inv.put (hf : Fits E E s p x l n) :
    Inv E R ({ s with waitLock := l, nextuid := n }.setProc p x) :=
  hI.set hf (List.Subset.refl E) (fun _ => .inl) hI.exitOnce (fun _ => .inl) hI.once

/-- A process is not its own child. -/
theorem Inv.child_ne (h : (s.proc p).pc.child = some np) : np ≠ p := by
  rintro rfl
  have hall := hI.allows np
  rw [(hI.born np np h).1] at hall
  rw [PC.user_of_used hall] at h
  cases h

/-- One process moves to another program point, or changes between SLEEPING,
RUNNABLE and RUNNING, and may take or give back `wait_lock` on the way. -/
theorem Inv.moveTo (p : Fin N) (x : Proc N) (l : Option (Fin N))
    (hsame : Same x (s.proc p)) (hallows : x.pc.allows x.state)
    (hlock : (l = s.waitLock ∧ x.pc.holds = (s.proc p).pc.holds) ∨
      ((s.waitLock = some p ∨ s.waitLock = none) ∧ l = if x.pc.holds then some p else none))
    (hleave : p = s.initproc → x.pc.leaving = false)
    (hgone : x.pc.gone = true → (s.proc p).pc.gone = true)
    (hexit : (s.proc p).pc.exiting = true → x.pc.exiting = true) (hscan : Scanned s p x.pc)
    (hborn : ∀ np, x.pc.child = some np →
      (s.proc np).state = .used ∧ (s.proc np).creator = some (s.proc p).uid)
    (hadopt : ∀ np, x.pc = .forkRunnable np → (s.proc np).parent = some p) :
    Inv E R ({ s with waitLock := l }.setProc p x) := by
  have hlock' : l = some p ↔ x.pc.holds = true := by
    rcases hlock with ⟨hl, hh⟩ | ⟨-, hl⟩
    · rw [hl, hh]; exact hI.lock p
    · rw [hl]; split <;> simp_all
  have hother : ∀ q, q ≠ p → (l = some q ↔ s.waitLock = some q) := by
    intro q hq
    rcases hlock with ⟨hl, -⟩ | ⟨hfree, hl⟩
    · rw [hl]
    · rw [hl]
      rcases hfree with hf | hf <;> rw [hf] <;> split <;> simp [Ne.symm hq]
  exact hI.put
    { lock := hlock', lockOther := hother, allows := hallows
      init := fun hp => ⟨hleave hp, fun hu => hI.init.2 (hp ▸ hsame.used.mp hu)⟩
      gone := fun hg => .inl (hgone hg), exiting := fun he => .inl (hexit he)
      parent := fun r hr => ⟨hsame.creator, .inl (hsame.parent ▸ hr)⟩
      unused := fun hu => hsame.parent.trans (hI.unused p (hsame.unused.mp hu))
      scanned := hscan
      orphan := fun hp hl => by
        rw [hsame.stage, hsame.zombie] at hl
        rw [hsame.parent]; exact hI.orphan p hp hl
      born := fun np hc => by
        obtain ⟨hst, hcr⟩ := hborn np hc
        refine ⟨?_, hst, hsame.uid.symm ▸ hcr⟩
        rintro rfl
        rw [hsame.used.mpr hst] at hallows
        rw [PC.user_of_used hallows] at hc
        cases hc
      adopted := hadopt
      child := fun q _ hc => ⟨hsame.used.mpr (hI.born q p hc).1, hsame.creator⟩
      adoptee := fun _ _ _ => hsame.parent
      uid := .inl ⟨hsame.uid, fun hx hu => hx (hsame.unused.mpr hu), rfl⟩
      zombie := fun hz => by
        have hz' := hsame.zombie.mp hz
        rw [hsame.uid, hsame.pid hz', hsame.xstate hz']; exact hI.zombie p hz'
      stays := fun hz => .inl (hsame.zombie.mpr hz) }

theorem Inv.nextpid (n : Int32) : Inv E R { s with nextpid := n } :=
  { hI with }

/-- `allocproc` fills a free slot in. -/
theorem Inv.hatch (hq : (s.proc q).state = .unused) (hstate : x.state = .used)
    (hpc : x.pc = .user) (hparent : x.parent = (s.proc q).parent) (huid : x.uid = s.nextuid) :
    Inv E R ({ s with nextuid := s.nextuid + 1 }.setProc q x) := by
  have hdead : (s.proc q).pc = .dead := PC.dead_of_unused (hq ▸ hI.allows q)
  have hnone : x.parent = none := hparent.trans (hI.unused q hq)
  have hnot : ∀ r, (s.proc r).pc.child ≠ some q := by
    intro r hc
    have := (hI.born r q hc).1
    rw [hq] at this; cases this
  exact hI.put
    { lock := by rw [hI.lock q, hpc, hdead]; simp [PC.holds]
      lockOther := fun _ _ => Iff.rfl
      allows := by rw [hpc, hstate]; exact .inr (.inr rfl)
      init := fun hi => by
        have := hI.init.1
        rw [← hi, hdead] at this; cases this
      gone := fun hg => by rw [hpc] at hg; cases hg
      exiting := fun he => by rw [hdead] at he; cases he
      parent := fun r hr => by rw [hnone] at hr; cases hr
      unused := fun _ => hnone
      scanned := by rw [hpc]; trivial
      orphan := fun _ hl => by rw [hstate] at hl; simp [stage] at hl
      born := fun np hc => by rw [hpc] at hc; cases hc
      adopted := fun np hc => by rw [hpc] at hc; cases hc
      child := fun r _ hc => absurd hc (hnot r)
      adoptee := fun _ _ _ => hparent
      uid := .inr ⟨by rw [hdead]; rfl, huid, rfl⟩
      zombie := fun hz => by rw [hstate] at hz; cases hz
      stays := fun hz => by rw [hq] at hz; cases hz }

/-- A parent pointer is written, by `fork` or by `reparent`. -/
theorem Inv.setParent {r : Fin N} (hr : (s.proc r).pc.gone = false)
    (hheir : Heir E s q r) (hq : (s.proc q).state ≠ .unused)
    (hlock : ∀ p, s.waitLock = some p → p ≠ r) (hfork : ∀ p, (s.proc p).pc ≠ .forkRunnable q) :
    Inv E R (s.setProc q { s.proc q with parent := some r }) := by
  refine hI.put
    { lock := hI.lock q, lockOther := fun _ _ => Iff.rfl, allows := hI.allows q
      init := fun hi => hi ▸ hI.init, gone := .inl, exiting := .inl
      parent := fun p hp => ⟨rfl, .inr ?_⟩
      unused := fun hu => absurd hu hq, scanned := hI.scanned q
      orphan := fun _ _ h => by cases h
      born := fun np hc => ⟨hI.child_ne hc, hI.born q np hc⟩
      adopted := hI.adopted q
      child := fun p _ hc => ⟨(hI.born p q hc).1, rfl⟩
      adoptee := fun p _ hc => absurd hc (hfork p)
      uid := .inl ⟨rfl, id, rfl⟩, zombie := hI.zombie q, stays := .inl }
  obtain rfl : r = p := Option.some.inj hp
  -- only the holder of `wait_lock` scans, and the new parent is somebody else
  exact ⟨fun hl => hlock r hl rfl, hr, hheir⟩

/-- `fork` makes its child RUNNABLE. -/
theorem Inv.launch (hq : (s.proc q).state = .used)
    (hparent : (s.proc q).parent ≠ none) (hfork : ∀ p, (s.proc p).pc.child ≠ some q) :
    Inv E R (s.setProc q { s.proc q with state := .runnable }) := by
  have huser : (s.proc q).pc = .user := PC.user_of_used (by rw [← hq]; exact hI.allows q)
  exact hI.put
    { lock := hI.lock q, lockOther := fun _ _ => Iff.rfl
      allows := by
        rw [huser]; exact .inr (.inl rfl)
      init := fun hi => absurd (hi ▸ hq) hI.init.2
      gone := .inl, exiting := .inl
      parent := fun r hr => ⟨rfl, .inl hr⟩
      unused := nofun
      scanned := hI.scanned q, orphan := fun _ _ => hparent
      born := fun np hc => ⟨hI.child_ne hc, hI.born q np hc⟩
      adopted := hI.adopted q, child := fun p _ hc => absurd hc (hfork p)
      adoptee := fun _ _ _ => rfl
      uid := .inl ⟨rfl, fun _ hu => by (rw [hq] at hu; cases hu), rfl⟩
      zombie := nofun
      stays := fun hz => by rw [hq] at hz; cases hz }

/-- `exit` makes its process a ZOMBIE, and gives `wait_lock` back. -/
theorem Inv.zombify {st : Int32} (hp : (s.proc p).pc = .exitZombie st) :
    Inv (E ++ [((s.proc p).uid, (s.proc p).pid, st)]) R ({ s with waitLock := none }.setProc p
      { s.proc p with xstate := st, state := .zombie, locked := true, pc := .exitSched }) := by
  have hlock : s.waitLock = some p := (hI.lock p).mpr (by rw [hp]; rfl)
  have hrun : (s.proc p).state = .running := by have := hI.allows p; rwa [hp] at this
  have hun : (s.proc p).state ≠ .unused := by rw [hrun]; simp
  -- `reparent` has swept the whole table
  have hnokid : ∀ q, (s.proc q).parent ≠ some p := by
    have hs := hI.scanned p
    rw [hp] at hs
    exact fun q => hs q q.isLt
  refine hI.set
    { lock := by simp [PC.holds]
      lockOther := fun q hq => by rw [hlock]; simp [Ne.symm hq]
      allows := rfl
      init := fun hi => by
        have := hI.init.1
        rw [← hi, hp] at this; cases this
      gone := fun _ => .inr ⟨rfl, hnokid⟩
      exiting := fun _ => .inr (by simp)
      parent := fun r hr => ⟨rfl, .inl hr⟩
      unused := nofun
      scanned := trivial
      orphan := fun hi _ => hI.orphan p hi (.inl (by rw [hrun]; rfl))
      born := fun np hc => by cases hc
      adopted := fun np hc => by cases hc
      child := fun q _ hc => by
        have := (hI.born q p hc).1
        rw [hrun] at this; cases this
      adoptee := fun _ _ _ => rfl
      uid := .inl ⟨rfl, fun _ => hun, rfl⟩
      zombie := fun _ => mem_append_right _ (mem_singleton.mpr rfl)
      stays := fun _ => .inl rfl }
    (subset_append_left _ _) (fun e he => ?_) ?_ (fun _ => .inl) hI.once
  · rcases mem_append.mp he with he | he
    · exact .inl he
    · obtain rfl := mem_singleton.mp he
      exact .inr ⟨rfl, hun, rfl⟩
  · rw [map_append, map_singleton, nodup_append]
    refine ⟨hI.exitOnce, nodup_singleton _, ?_⟩
    intro u hu v hv huv
    obtain ⟨e, he, rfl⟩ := mem_map.mp hu
    obtain rfl := mem_singleton.mp hv
    have := (hI.exited e he).2 p hun huv.symm
    rw [hrun] at this; cases this

/-- `freeproc` on a ZOMBIE: the slot is free again, and its process has been
delivered. -/
theorem Inv.bury {c : Fin N} (hc : (s.proc c).state = .zombie) :
    Inv E (R ++ [((s.proc c).uid, (s.proc c).pid, (s.proc c).xstate)])
      (s.setProc c (s.proc c).free) := by
  have hgone : (s.proc c).pc.gone = true := PC.gone_of_zombie (by rw [← hc]; exact hI.allows c)
  have hpc : (s.proc c).pc.exiting = false ∧ (s.proc c).pc.holds = false ∧
      (s.proc c).pc.leaving = true := by
    cases h : (s.proc c).pc <;> rw [h] at hgone <;> first | exact ⟨rfl, rfl, rfl⟩ | cases hgone
  have hun : (s.proc c).state ≠ .unused := by rw [hc]; simp
  have hnot : ∀ q, (s.proc q).pc.child ≠ some c := by
    intro q hq
    have := (hI.born q c hq).1
    rw [hc] at this; cases this
  refine hI.set
    { lock := by rw [hI.lock c, hpc.2.1]; simp [Proc.free, PC.holds]
      lockOther := fun _ _ => Iff.rfl
      allows := .inl rfl
      init := fun hi => by
        have := hI.init.1
        rw [← hi, hpc.2.2] at this; cases this
      gone := fun _ => .inl hgone
      exiting := fun he => by rw [hpc.1] at he; cases he
      parent := fun r hr => by cases hr
      unused := fun _ => rfl
      scanned := trivial
      orphan := fun _ hl => by simp [Proc.free, stage] at hl
      born := fun np h => by cases h
      adopted := fun np h => by cases h
      child := fun q _ hq => absurd hq (hnot q)
      adoptee := fun q _ hq => absurd (PC.child_forkRunnable hq) (hnot q)
      uid := .inl ⟨rfl, absurd rfl, rfl⟩
      zombie := nofun
      stays := fun _ => .inr rfl }
    (List.Subset.refl E) (fun _ => .inl) hI.exitOnce (fun e he => ?_) ?_
  · rcases mem_append.mp he with he | he
    · exact .inl he
    · obtain rfl := mem_singleton.mp he
      exact .inr ⟨hI.zombie c hc, rfl, hun, rfl⟩
  · rw [map_append, map_singleton, nodup_append]
    refine ⟨hI.once, nodup_singleton _, ?_⟩
    intro u hu v hv huv
    obtain ⟨e, he, rfl⟩ := mem_map.mp hu
    obtain rfl := mem_singleton.mp hv
    exact (hI.reaped e he).2.2 c hun huv.symm

end

end Xv6.Procs
