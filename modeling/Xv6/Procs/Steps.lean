/-
# `Xv6.Procs.Steps` — what one step of the process table can be

`step` as a relation: one constructor for every section of the source that a
step can be, with what the section has found and what it leaves.  Invariants
are proved by cases on it, and the branches of `step` are taken apart once,
here (`next_of_step`).
-/
import Xv6.Procs.Machine

namespace Xv6.Procs

variable {N : Nat}

/-- `p` is on a CPU at the program point `pc`. -/
structure At (s : Sys N) (p : Fin N) (pc : PC N) : Prop where
  running : (s.proc p).state = .running
  pc : (s.proc p).pc = pc

/-- Steps that write nothing but a program point, or a return value. -/
inductive Walk (s : Sys N) (p : Fin N) : PC N → PC N → Prop
  | fork : Walk s p .user (.forkScan 0)
  | exit {st} (h : p ≠ s.initproc) : Walk s p .user (.exitLock st)
  | wait {addr} : Walk s p .user (.waitLock addr)
  | kill {pid} : Walk s p .user (.killScan pid 0)
  | forkScan {j} (h : j < N) (hu : (s.proc ⟨j, h⟩).state ≠ .unused) :
      Walk s p (.forkScan j) (.forkScan (j + 1))
  | reparent {st j} (h : j < N) (hp : (s.proc ⟨j, h⟩).parent ≠ some p) :
      Walk s p (.reparent st j) (.reparent st (j + 1))
  | reparented {st j} (h : ¬ j < N) : Walk s p (.reparent st j) (.wakeParent st 0)
  | wakeInit {st j k} (h : ¬ k < N) : Walk s p (.wakeInit st j k) (.reparent st (j + 1))
  | wakeParent {st k} (h : ¬ k < N) : Walk s p (.wakeParent st k) (.exitZombie st)
  | notMine {addr j hk} (h : j < N) (hp : (s.proc ⟨j, h⟩).parent ≠ some p) :
      Walk s p (.waitScan addr j hk) (.waitScan addr (j + 1) hk)
  | alive {addr j hk} (h : j < N) (hp : (s.proc ⟨j, h⟩).parent = some p)
      (hz : (s.proc ⟨j, h⟩).state ≠ .zombie) :
      Walk s p (.waitScan addr j hk) (.waitScan addr (j + 1) true)
  | scanned {addr j hk} (h : ¬ j < N) : Walk s p (.waitScan addr j hk) (.waitTest addr hk)
  | tested {addr} : Walk s p (.waitTest addr true) (.waitSleep addr)
  | notHim {pid j} (h : j < N) (hp : (s.proc ⟨j, h⟩).pid ≠ pid) :
      Walk s p (.killScan pid j) (.killScan pid (j + 1))

/-- One step of the machine. -/
inductive Next (s : Sys N) : Act N → Sys N → Prop
  | walk {a p pc pc'} (ha : (∃ c, a = .call p c) ∨ a = .run p) (h : At s p pc) (w : Walk s p pc pc') :
      Next s a (s.goto p pc')
  | block {p c} (h : At s p .user) : Next s (.call p (.sleep c)) (s.setProc p
      { s.proc p with chan := some (.other c), state := .sleeping, pc := .blocked })
  | noSlot {p j} (h : At s p (.forkScan j)) (hj : ¬ j < N) : Next s (.run p) (s.ret p (-1))
  | alloc {p} {np : Fin N} {ok} (h : At s p (.forkScan np)) (hu : (s.proc np).state = .unused)
      (hl : (s.proc np).locked = false) : Next s (.alloc p ok) (allocAt s p np ok)
  | setParent {p np} (h : At s p (.forkParent np)) (hl : s.waitLock = none) : Next s (.run p)
      ((s.setProc np { s.proc np with parent := some p }).goto p (.forkRunnable np))
  | launch {p np} (h : At s p (.forkRunnable np)) (hl : (s.proc np).locked = false) :
      Next s (.run p) ((s.setProc np { s.proc np with state := .runnable }).ret p (s.proc np).pid)
  | exitLock {p st} (h : At s p (.exitLock st)) (hl : s.waitLock = none) :
      Next s (.run p) ({ s with waitLock := some p }.goto p (.reparent st 0))
  | adopt {p st j} (h : At s p (.reparent st j)) (hj : j < N)
      (hp : (s.proc ⟨j, hj⟩).parent = some p) : Next s (.run p)
        ((s.setProc ⟨j, hj⟩ { s.proc ⟨j, hj⟩ with parent := some s.initproc }).goto p
          (.wakeInit st j 0))
  | wakeInit {p st j k t} (h : At s p (.wakeInit st j k)) (hk : k < N)
      (hw : wakeupAt s p (some (.proc s.initproc)) ⟨k, hk⟩ = some t) :
      Next s (.run p) (t.goto p (.wakeInit st j (k + 1)))
  | wakeParent {p st k t} (h : At s p (.wakeParent st k)) (hk : k < N)
      (hw : wakeupAt s p ((s.proc p).parent.map .proc) ⟨k, hk⟩ = some t) :
      Next s (.run p) (t.goto p (.wakeParent st (k + 1)))
  | zombify {p st} (h : At s p (.exitZombie st)) : Next s (.run p)
      ({ s with waitLock := none }.setProc p
        { s.proc p with xstate := st, state := .zombie, locked := true, pc := .exitSched })
  | exitSched {p} (h : (s.proc p).pc = .exitSched) :
      Next s (.run p) (s.setProc p { s.proc p with locked := false, pc := .dead })
  | waitLock {p addr} (h : At s p (.waitLock addr)) (hl : s.waitLock = none) :
      Next s (.run p) ({ s with waitLock := some p }.goto p (.waitScan addr 0 false))
  | reap {a p} {c : Fin N} {addr hk copied} (ha : a = .run p ∨ a = .copyout p true)
      (h : At s p (.waitScan addr c hk))
      (hp : (s.proc c).parent = some p) (hl : (s.proc c).locked = false)
      (hz : (s.proc c).state = .zombie) : Next s a (reap s p c copied)
  | badAddr {p} {c : Fin N} {addr hk} (h : At s p (.waitScan addr c hk)) :
      Next s (.copyout p false) ({ s with waitLock := none }.ret p (-1))
  | giveUp {p addr hk} (h : At s p (.waitTest addr hk)) :
      Next s (.run p) ({ s with waitLock := none }.ret p (-1))
  | enterSleep {p addr} (h : At s p (.waitSleep addr)) : Next s (.run p)
      ({ s with waitLock := none }.setProc p { s.proc p with locked := true, pc := .entering addr })
  | fallAsleep {p addr} (h : At s p (.entering addr)) : Next s (.run p)
      (s.setProc p { s.proc p with
        chan := some (.proc p), state := .sleeping, locked := false, pc := .asleep addr })
  | kill {p pid} {q : Fin N} (h : At s p (.killScan pid q)) (hp : (s.proc q).pid = pid)
      (hl : (s.proc q).locked = false) : Next s (.run p) ((killAt s q).ret p 0)
  | nobody {p pid j} (h : At s p (.killScan pid j)) (hj : ¬ j < N) : Next s (.run p) (s.ret p (-1))
  | wakeUp {p pc} (hr : (s.proc p).state = .runnable) (hl : (s.proc p).locked = false)
      (hpc : (∃ addr, (s.proc p).pc = .asleep addr ∧ pc = .waitLock addr) ∨
        ((s.proc p).pc = .blocked ∧ pc = .user)) : Next s (.sched p)
      (s.setProc p { s.proc p with state := .running, chan := none, pc := pc })
  | sched {p} (hr : (s.proc p).state = .runnable) (hl : (s.proc p).locked = false)
      (hpc : ∀ addr, (s.proc p).pc ≠ .asleep addr) (hpc' : (s.proc p).pc ≠ .blocked) :
      Next s (.sched p) (s.setProc p { s.proc p with state := .running })
  | yield {p} (hr : (s.proc p).state = .running) (hl : (s.proc p).locked = false)
      (hw : s.waitLock ≠ some p) :
      Next s (.yield p) (s.setProc p { s.proc p with state := .runnable })
  | wake {q c} (hl : (s.proc q).locked = false) : Next s (.wake q) (rouse s (.other c) q)
  | fault {p} (h : At s p .user) (hl : (s.proc p).locked = false) :
      Next s (.fault p) (s.setProc p { s.proc p with killed := true })

theorem wakeupAt_eq {s t : Sys N} {p r : Fin N} {c : Option (Chan N)}
    (h : wakeupAt s p c r = some t) : t = s ∨ ∃ c', c = some c' ∧ t = rouse s c' r := by
  unfold wakeupAt at h
  split_ifs at h
  · cases h; exact .inl rfl
  · cases c with
    | none => cases h; exact .inl rfl
    | some c => cases h; exact .inr ⟨c, rfl, rfl⟩

/-! ## `step` is `Next` -/

section
variable {s t : Sys N} {p : Fin N}

theorem next_of_call {c : Call} (h : At s p .user) (hc : call s p c = some t) :
    Next s (.call p c) t := by
  have hwalk : ∀ {pc}, Walk s p .user pc → Next s (.call p c) (s.goto p pc) :=
    fun w => .walk (.inl ⟨_, rfl⟩) h w
  cases c with
  | fork => cases hc; exact hwalk .fork
  | exit st =>
    simp only [call] at hc
    split_ifs at hc with hp
    cases hc; exact hwalk (.exit hp)
  | wait addr => cases hc; exact hwalk .wait
  | kill pid => cases hc; exact hwalk .kill
  | sleep c => cases hc; exact .block h

theorem next_of_scanAt {addr : UInt64} {q : Fin N} {hk : Bool} (h : At s p (.waitScan addr q hk))
    (hs : scanAt s p q addr hk = some t) : Next s (.run p) t := by
  unfold scanAt at hs
  split_ifs at hs with hp hl hz
  · cases hs; exact .reap (.inl rfl) h hp (by simpa using hl) hz
  · cases hs; exact .walk (.inr rfl) h (.alive q.isLt hp hz)
  · cases hs; exact .walk (.inr rfl) h (.notMine q.isLt hp)

theorem next_of_run (hr : (s.proc p).state = .running ∨ (s.proc p).pc = .exitSched)
    (h : run s p = some t) : Next s (.run p) t := by
  by_cases he : (s.proc p).pc = .exitSched
  · simp only [run, he, Option.some.injEq] at h
    subst h; exact .exitSched he
  have ha : ∀ {pc : PC N}, (s.proc p).pc = pc → At s p pc := fun hpc => ⟨hr.resolve_right he, hpc⟩
  have hwalk : ∀ {pc pc'}, (s.proc p).pc = pc → Walk s p pc pc' → Next s (.run p) (s.goto p pc') :=
    fun hpc w => .walk (.inr rfl) (ha hpc) w
  unfold run at h
  split at h
  all_goals try cases h
  next j hpc =>
    split_ifs at h with hj hu
    · cases h; exact hwalk hpc (.forkScan hj fun hs => hu (.inr hs))
    · cases h; exact .noSlot (ha hpc) hj
  next np hpc => split_ifs at h with hl; cases h; exact .setParent (ha hpc) hl
  next np hpc => split_ifs at h with hl; cases h; exact .launch (ha hpc) (by simpa using hl)
  next st hpc => split_ifs at h with hl; cases h; exact .exitLock (ha hpc) hl
  next st j hpc =>
    split_ifs at h with hj hp
    · cases h; exact .adopt (ha hpc) hj hp
    · cases h; exact hwalk hpc (.reparent hj hp)
    · cases h; exact hwalk hpc (.reparented hj)
  next st j k hpc =>
    split_ifs at h with hk
    · obtain ⟨u, hu, rfl⟩ := Option.map_eq_some_iff.mp h
      exact .wakeInit (ha hpc) hk hu
    · cases h; exact hwalk hpc (.wakeInit hk)
  next st k hpc =>
    split_ifs at h with hk
    · obtain ⟨u, hu, rfl⟩ := Option.map_eq_some_iff.mp h
      exact .wakeParent (ha hpc) hk hu
    · cases h; exact hwalk hpc (.wakeParent hk)
  next st hpc => exact .zombify (ha hpc)
  next hpc => exact absurd hpc he
  next addr hpc => split_ifs at h with hl; cases h; exact .waitLock (ha hpc) hl
  next addr j hk hpc =>
    split_ifs at h with hj
    · exact next_of_scanAt (ha hpc) h
    · cases h; exact hwalk hpc (.scanned hj)
  next addr hk hpc =>
    split_ifs at h with hc
    · cases h; exact .giveUp (ha hpc)
    · obtain rfl : hk = true := eq_true_of_ne_false fun hf => hc (.inl hf)
      cases h; exact hwalk hpc .tested
  next addr hpc => exact .enterSleep (ha hpc)
  next addr hpc => exact .fallAsleep (ha hpc)
  next pid j hpc =>
    split_ifs at h with hj hl hp
    · cases h; exact .kill (ha hpc) hp (by simpa using hl)
    · cases h; exact hwalk hpc (.notHim hj hp)
    · cases h; exact .nobody (ha hpc) hj

/-- The branches of `step`. -/
theorem next_of_step {a : Act N} (h : step s a = some t) : Next s a t := by
  cases a with
  | call p c =>
    simp only [step] at h
    split_ifs at h with hc
    exact next_of_call ⟨hc.1, hc.2⟩ h
  | run p =>
    simp only [step] at h
    split_ifs at h with hr
    exact next_of_run hr h
  | alloc p ok =>
    simp only [step, alloc] at h
    split_ifs at h with hr
    split at h
    · next j hpc =>
      split_ifs at h with hj hu
      cases h; exact @Next.alloc N s p ⟨j, hj⟩ ok ⟨hr, hpc⟩ hu.1 hu.2
    · cases h
  | copyout p ok =>
    simp only [step] at h
    split_ifs at h with hr
    unfold copyout at h
    split at h
    · next addr j hk hpc =>
      split_ifs at h with hj hc hok
      · subst hok
        cases h; exact .reap (.inr rfl) ⟨hr, hpc⟩ hc.1 hc.2.1 hc.2.2.1
      · obtain rfl := eq_false_of_ne_true hok
        cases h; exact .badAddr (c := ⟨j, hj⟩) ⟨hr, hpc⟩
    · cases h
  | sched p =>
    simp only [step, sched] at h
    split_ifs at h with hc
    split at h
    · next addr hpc => cases h; exact .wakeUp hc.1 hc.2 (.inl ⟨addr, hpc, rfl⟩)
    · next hpc => cases h; exact .wakeUp hc.1 hc.2 (.inr ⟨hpc, rfl⟩)
    · next h₁ h₂ => cases h; exact .sched hc.1 hc.2 h₁ h₂
  | yield p =>
    simp only [step] at h
    split_ifs at h with hc
    cases h; exact .yield hc.1 hc.2.1 hc.2.2
  | wake q =>
    simp only [step] at h
    split at h
    · split_ifs at h with hl
      cases h; exact .wake (by simpa using hl)
    · cases h
  | fault p =>
    simp only [step] at h
    split_ifs at h with hc
    cases h; exact .fault ⟨hc.1, hc.2.1⟩ hc.2.2

end

end Xv6.Procs
