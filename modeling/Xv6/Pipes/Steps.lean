/-
# `Xv6.Pipes.Steps` — what one step of the pipe machine can be

`step` as a relation, one constructor for every section of `pipe.c`, `sleep`, `wakeup`
and the scheduler that a step can be (`Next`); invariants are proved by cases on it.
The first one is the control part that all others rest on (`Ctl`): the process at a
program point inside the critical section, and no other, holds `pi->lock`, and what it
has tested there still holds.
-/
import Xv6.Lib.Run
import Xv6.Pipes.Machine

namespace Xv6.Pipes

open Machine

variable {N : Nat} {c : Chan} {pc : PC}

/-- `p` is on a CPU at the program point `pc`. -/
structure At (s : Sys N) (p : Fin N) (pc : PC) : Prop where
  running : (s.proc p).state = .running
  pc : (s.proc p).pc = pc

/-- Steps inside the critical section that write only a program point. -/
inductive Walk (s : Sys N) (p : Fin N) : PC → PC → Prop
  | wOpen {n : Int} {i : Nat} (hi : i < n) (ho : s.pi.readopen = true) :
      Walk s p (.wTest n i) (.wKilled n i)
  | wDone {n i} : Walk s p (.wTest n i) (.wakeup .nread 0 (.release i))
  | wAlive {n i} : Walk s p (.wKilled n i) (.wFull n i)
  | wSleep {n i} (hf : s.pi.full = true) : Walk s p (.wFull n i) (.wakeup .nread 0 (.sleep n i))
  | wRoom {n i} (hf : s.pi.full = false) : Walk s p (.wFull n i) (.wCopy n i)
  | rEmpty {n} (he : s.pi.nread = s.pi.nwrite) (ho : s.pi.writeopen = true) :
      Walk s p (.rTest n) (.rKilled n)
  | rReady {n} : Walk s p (.rTest n) (.rCopy n 0)
  | rAlive {n} : Walk s p (.rKilled n) (.sleep .nread (.read n))
  | rDone {n i} : Walk s p (.rCopy n i) (.wakeup .nwrite 0 (.release i))
  | self {c k} : Walk s p (.wakeup c p k) (.wakeup c (p + 1) k)
  | wokenSleep {c j n i} (hj : ¬ j < N) :
      Walk s p (.wakeup c j (.sleep n i)) (.sleep .nwrite (.write n i))
  | woken {c j r} (hj : ¬ j < N) : Walk s p (.wakeup c j (.release r)) (.release r)

/-- The exits: no reader is left, the process is killed, or `release` at the end. -/
inductive Leaves (s : Sys N) (p : Fin N) : PC → Prop
  | closed {n i} (ho : s.pi.readopen = false) : Leaves s p (.wTest n i)
  | wKilled {n i} (hk : (s.proc p).killed = true) : Leaves s p (.wKilled n i)
  | rKilled {n} (hk : (s.proc p).killed = true) : Leaves s p (.rKilled n)
  | release {r} : Leaves s p (.release r)

/-- The byte goes into the ring. -/
def Pipe.store (pi : Pipe) (ch : UInt8) : Pipe :=
  { pi with
    data := Function.update pi.data (pi.nwrite.toNat % pipeSize) ch
    nwrite := pi.nwrite + 1 }

/-- One step of the machine. -/
inductive Next (s : Sys N) : Act N → Sys N → Prop
  | call {p e} (h : At s p .user) (he : e.fresh = true) : Next s (.call p e) (s.goto p (.acquire e))
  | enter {p e} (h : At s p (.acquire e)) (hl : s.lock = none) : Next s (.run p) (enter s p e)
  | walk {p pc pc'} (h : At s p pc) (w : Walk s p pc pc') : Next s (.run p) (s.goto p pc')
  | leave {p pc} (h : At s p pc) (l : Leaves s p pc) :
      Next s (.run p) ({ s with lock := none }.goto p .user)
  | rouse {p} {q : Fin N} {c k} (h : At s p (.wakeup c q k)) (hne : q ≠ p)
      (hl : (s.proc q).locked = false) :
      Next s (.run p) ((rouse s c q).goto p (.wakeup c (q + 1) k))
  | sleep {p c e} (h : At s p (.sleep c e)) : Next s (.run p)
      ({ s with lock := none }.setProc p { s.proc p with locked := true, pc := .entering c e })
  | fallAsleep {p c e} (h : At s p (.entering c e)) : Next s (.run p) (s.setProc p
      { s.proc p with chan := some c, state := .sleeping, locked := false, pc := .asleep e })
  | fault {p n i} (h : At s p (.wCopy n i)) :
      Next s (.copyin p none) (s.goto p (.wakeup .nread 0 (.release i)))
  | store {p n i ch} (h : At s p (.wCopy n i)) :
      Next s (.copyin p (some ch)) ({ s with pi := s.pi.store ch }.goto p (.wTest n (i + 1)))
  | take {p n i ok} (h : At s p (.rCopy n i)) (hne : s.pi.nread ≠ s.pi.nwrite) :
      Next s (.copyout p ok) ({ s with pi := { s.pi with nread := s.pi.nread + 1 } }.goto p
        (if ok then .rCopy n (i + 1) else .wakeup .nwrite 0 (.release i)))
  | kill {p} : Next s (.kill p) (s.setProc p { s.proc p with
      killed := true
      state := if (s.proc p).state = .sleeping then .runnable else (s.proc p).state })
  | wakeUp {p e} (h : (s.proc p).pc = .asleep e) : Next s (.sched p)
      (s.setProc p { s.proc p with state := .running, chan := none, pc := .acquire e })
  | sched {p} : Next s (.sched p) (s.setProc p { s.proc p with state := .running })
  | yield {p} : Next s (.yield p) (s.setProc p { s.proc p with state := .runnable })

section
variable {s t : Sys N} {p : Fin N} {a : Act N}

theorem next_of_wakeupAt {j : Nat} {k : After} (h : At s p (.wakeup c j k))
    (hw : wakeupAt s p c j k = some t) : Next s (.run p) t := by
  unfold wakeupAt at hw
  split_ifs at hw with hj hjp hl
  · cases hw
    obtain rfl : (p : Nat) = j := by rw [← hjp]
    exact .walk h .self
  · cases hw; exact .rouse h hjp (by simpa using hl)
  · cases k with
    | sleep n i => cases hw; exact .walk h (.wokenSleep hj)
    | release r => cases hw; exact .walk h (.woken hj)

theorem next_of_run (hr : (s.proc p).state = .running) (h : run s p = some t) :
    Next s (.run p) t := by
  have hat : ∀ {pc : PC}, (s.proc p).pc = pc → At s p pc := fun hpc => ⟨hr, hpc⟩
  unfold run at h
  split at h
  next => cases h
  next e hpc => split_ifs at h with hl; cases h; exact .enter (hat hpc) hl
  next n i hpc =>
    split_ifs at h with hi ho
    · cases h; exact .walk (hat hpc) (.wOpen hi ho)
    · cases h; exact .leave (hat hpc) (.closed (by simpa using ho))
    · cases h; exact .walk (hat hpc) .wDone
  next n i hpc =>
    split_ifs at h with hk
    · cases h; exact .leave (hat hpc) (.wKilled hk)
    · cases h; exact .walk (hat hpc) .wAlive
  next n i hpc =>
    split_ifs at h with hf
    · cases h; exact .walk (hat hpc) (.wSleep hf)
    · cases h; exact .walk (hat hpc) (.wRoom (by simpa using hf))
  next => cases h
  next n hpc =>
    split_ifs at h with he
    · cases h; exact .walk (hat hpc) (.rEmpty he.1 he.2)
    · cases h; exact .walk (hat hpc) .rReady
  next n hpc =>
    split_ifs at h with hk
    · cases h; exact .leave (hat hpc) (.rKilled hk)
    · cases h; exact .walk (hat hpc) .rAlive
  next n i hpc => split_ifs at h; cases h; exact .walk (hat hpc) .rDone
  next c j k hpc => exact next_of_wakeupAt (hat hpc) h
  next c e hpc => cases h; exact .sleep (hat hpc)
  next c e hpc => cases h; exact .fallAsleep (hat hpc)
  next => cases h
  next r hpc => cases h; exact .leave (hat hpc) .release

/-- The branches of `step`. -/
theorem next_of_step (h : step s a = some t) : Next s a t := by
  cases a with
  | call p e =>
    simp only [step] at h
    split_ifs at h with hc
    cases h; exact .call ⟨hc.1, hc.2.1⟩ hc.2.2
  | run p =>
    simp only [step] at h
    split_ifs at h with hr
    exact next_of_run hr h
  | copyin p ch =>
    simp only [step, copyin] at h
    split_ifs at h with hr
    split at h
    · next n i hpc =>
      cases ch with
      | none => cases h; exact .fault ⟨hr, hpc⟩
      | some ch => cases h; exact .store ⟨hr, hpc⟩
    · cases h
  | copyout p ok =>
    simp only [step] at h
    split_ifs at h with hr
    unfold copyout at h
    split at h
    · next n i hpc =>
      split at h
      · next hc =>
        have hn : Next s (.copyout p ok) _ := .take ⟨hr, hpc⟩ hc.2
        cases ok <;> cases h <;> exact hn
      · cases h
    · cases h
  | kill p =>
    simp only [step, kill] at h
    split at h <;> cases h
    exact .kill
  | sched p =>
    simp only [step, sched] at h
    split_ifs at h
    split at h
    · next e hpc => cases h; exact .wakeUp hpc
    · cases h; exact .sched
  | yield p =>
    simp only [step, yield] at h
    split_ifs at h
    cases h; exact .yield

end

/-! ## Control -/

/-- Nobody should be asleep on `c`. -/
def Stale (pi : Pipe) : Chan → Prop
  | .nread => pi.nread ≠ pi.nwrite ∨ pi.writeopen = false
  | .nwrite => pi.full = false ∨ pi.readopen = false

/-- `x` is in `sleep(c, &pi->lock)` after the release of `pi->lock`. -/
def PC.enters : PC → Chan → Prop
  | .entering c' _, c => c' = c
  | _, _ => False

/-- The program points at which a process holds `pi->lock`. -/
def PC.holds : PC → Bool
  | .wTest _ _ | .wKilled _ _ | .wFull _ _ | .wCopy _ _ => true
  | .rTest _ | .rKilled _ | .rCopy _ _ => true
  | .wakeup _ _ _ | .sleep _ _ | .release _ => true
  | .user | .acquire _ | .entering _ _ | .asleep _ => false

/-- What the holder knows about the pipe from the tests it has made. -/
def PC.here (pi : Pipe) : PC → Prop
  | .wKilled _ _ | .wFull _ _ => pi.readopen = true
  | .wCopy _ _ => pi.readopen = true ∧ pi.full = false
  | .rKilled _ => ¬ Stale pi .nread
  | .wakeup _ _ (.sleep _ _) => ¬ Stale pi .nwrite
  | .sleep c _ => ¬ Stale pi c
  | _ => True

structure Ctl (s : Sys N) : Prop where
  holds : ∀ p, s.lock = some p ↔ (s.proc p).pc.holds = true
  asleep : ∀ p, (s.proc p).state = .sleeping → ∃ e, (s.proc p).pc = .asleep e
  locked : ∀ p c, (s.proc p).pc.enters c → (s.proc p).locked = true
  here : ∀ p, (s.proc p).pc.here s.pi

theorem PC.here_of_not_holds {pi : Pipe} (h : pc.holds = false) : pc.here pi := by
  cases pc <;> trivial

theorem PC.not_enters_of_holds (h : pc.holds = true) : ¬ pc.enters c := by
  cases pc <;> simp_all [PC.holds, PC.enters]

section
variable {s t : Sys N} {p q : Fin N} {a : Act N} {pc pc' : PC} {x : Proc} {u : Pipe}
  {l : Option (Fin N)}

theorem setProc_self (s : Sys N) (p : Fin N) (x : Proc) : (s.setProc p x).proc p = x :=
  Function.update_self ..

theorem setProc_ne (s : Sys N) (x : Proc) (h : q ≠ p) : (s.setProc p x).proc q = s.proc q :=
  Function.update_of_ne h ..

theorem rouse_pi (s : Sys N) (c : Chan) (q : Fin N) : (rouse s c q).pi = s.pi := by
  unfold rouse; split <;> rfl

theorem rouse_proc_ne (h : p ≠ q) : (rouse s c q).proc p = s.proc p := by
  unfold rouse
  split
  · exact setProc_ne s _ h
  · rfl

theorem At.rouse (hat : At s p pc) (h : p ≠ q) : At (rouse s c q) p pc :=
  ⟨by rw [rouse_proc_ne h, hat.running], by rw [rouse_proc_ne h, hat.pc]⟩

theorem ctl_init (h : Init s) : Ctl s where
  holds p := by simp [h.lock, h.pc, PC.holds]
  asleep p hs := absurd hs (h.awake p)
  locked p c he := by simp [h.pc, PC.enters] at he
  here p := by simp [h.pc, PC.here]

theorem Ctl.lock_of_at (hC : Ctl s) (hat : At s p pc) (h : pc.holds = true) : s.lock = some p :=
  (hC.holds p).mpr (by rwa [hat.pc])

/-- Nobody but the holder of the lock is inside the critical section. -/
theorem Ctl.alone (hC : Ctl s) (hl : s.lock = some p ∨ s.lock = none) (hq : q ≠ p) :
    (s.proc q).pc.holds = false := by
  by_contra h
  have hlock := (hC.holds q).mpr (by simpa using h)
  rcases hl with hl | hl
  · rw [hl] at hlock; exact hq (Option.some.inj hlock).symm
  · rw [hl] at hlock; cases hlock

/-- One process changes; it may take the lock, or give it back, or use the pipe while it
has it. -/
theorem Ctl.set (hC : Ctl s) (hlock : (u = s.pi ∧ l = s.lock ∧ x.pc.holds = (s.proc p).pc.holds) ∨
      ((s.lock = some p ∨ s.lock = none) ∧ l = if x.pc.holds then some p else none))
    (hs : x.state = .sleeping → ∃ e, x.pc = .asleep e)
    (hent : ∀ c, x.pc.enters c → x.locked = true) (hhere : x.pc.here u) :
    Ctl ({ s with pi := u, lock := l }.setProc p x) := by
  refine ⟨fun q => ?_, fun q => ?_, fun q => ?_, fun q => ?_⟩ <;> by_cases hq : q = p
  · subst hq
    rw [setProc_self]
    show l = some q ↔ _
    rcases hlock with ⟨-, hl, hh⟩ | ⟨-, hl⟩
    · rw [hl, hh]; exact hC.holds q
    · rw [hl]; cases x.pc.holds <;> simp
  · rw [setProc_ne _ _ hq]
    show l = some q ↔ (s.proc q).pc.holds = true
    rcases hlock with ⟨-, hl, -⟩ | ⟨hfree, hl⟩
    · rw [hl]; exact hC.holds q
    · rw [hl, hC.alone hfree hq]; split <;> simp [Ne.symm hq]
  · subst hq; rwa [setProc_self]
  · rw [setProc_ne _ _ hq]; exact hC.asleep q
  · subst hq; rwa [setProc_self]
  · rw [setProc_ne _ _ hq]; exact hC.locked q
  · subst hq; rwa [setProc_self]
  · rw [setProc_ne _ _ hq]
    rcases hlock with ⟨hu, -, -⟩ | ⟨hfree, -⟩
    · show (s.proc q).pc.here u
      rw [hu]; exact hC.here q
    · exact PC.here_of_not_holds (hC.alone hfree hq)

/-- The process on a CPU moves, and nothing happens to the lock or the pipe. -/
theorem Ctl.goto (hC : Ctl s) (hat : At s p pc) (h : pc'.holds = pc.holds)
    (hent : ∀ c, ¬ pc'.enters c) (hhere : pc'.here s.pi) : Ctl (s.goto p pc') :=
  hC.set (.inl ⟨rfl, rfl, by rwa [hat.pc]⟩)
    (fun hs => by rw [show (s.proc p).state = _ from hat.running] at hs; cases hs)
    (fun c hc => absurd hc (hent c)) hhere

/-- The holder of the lock moves, and may change the pipe, or give the lock back. -/
theorem Ctl.move (hC : Ctl s) (hat : At s p pc)
    (hfree : s.lock = some p ∨ s.lock = none) (hl : l = if pc'.holds then some p else none)
    (hent : ∀ c, ¬ pc'.enters c) (hhere : pc'.here u) :
    Ctl ({ s with pi := u, lock := l }.goto p pc') :=
  hC.set (.inr ⟨hfree, hl⟩)
    (fun hs => by rw [show (s.proc p).state = _ from hat.running] at hs; cases hs)
    (fun c hc => absurd hc (hent c)) hhere

theorem Walk.holds (w : Walk s p pc pc') : pc.holds = true ∧ pc'.holds = true := by
  cases w <;> exact ⟨rfl, rfl⟩

theorem Walk.here (w : Walk s p pc pc') (h : pc.here s.pi) : pc'.here s.pi := by
  cases w with
  | wOpen _ ho => exact ho
  | wAlive => exact h
  | wSleep hf =>
    rintro (hst | hst)
    · rw [hf] at hst; cases hst
    · rw [show s.pi.readopen = true from h] at hst; cases hst
  | wRoom hf => exact ⟨h, hf⟩
  | rEmpty he ho =>
    rintro (hst | hst)
    · exact hst he
    · rw [ho] at hst; cases hst
  | rAlive => exact h
  | @self c k => cases k <;> exact h
  | wokenSleep _ => exact h
  | _ => trivial

theorem Leaves.holds (l : Leaves s p pc) : pc.holds = true := by
  cases l <;> rfl

theorem ctl_rouse (hC : Ctl s) (c : Chan) (q : Fin N) : Ctl (rouse s c q) := by
  unfold rouse
  split
  · exact hC.set (.inl ⟨rfl, rfl, rfl⟩) nofun
      (hC.locked q) (hC.here q)
  · exact hC

theorem ctl_next (hC : Ctl s) (h : Next s a t) : Ctl t := by
  cases h with
  | call hat _ | fault hat => exact hC.goto hat rfl (fun _ => id) trivial
  | @enter p e hat hl =>
    cases e with
    | write n i | read n => exact hC.move hat (.inr hl) rfl (fun _ => id) trivial
    | close w => cases w <;> exact hC.move hat (.inr hl) rfl (fun _ => id) trivial
  | @walk p pc pc' hat w =>
    have hhere := hC.here p
    rw [hat.pc] at hhere
    exact hC.goto hat (by rw [w.holds.1, w.holds.2])
      (fun c => PC.not_enters_of_holds w.holds.2) (w.here hhere)
  | leave hat l =>
    exact hC.move hat (.inl (hC.lock_of_at hat l.holds)) rfl (fun _ => id) trivial
  | @rouse p q c k hat hne _ =>
    have hhere := hC.here p
    rw [hat.pc] at hhere
    refine (ctl_rouse hC c q).goto (hat.rouse hne.symm) rfl (fun _ => id) ?_
    rw [rouse_pi]
    cases k <;> exact hhere
  | @sleep p c e hat =>
    exact hC.set (.inr ⟨.inl (hC.lock_of_at hat rfl), rfl⟩)
      (fun hs => by rw [show (s.proc p).state = _ from hat.running] at hs; cases hs)
      (fun _ _ => rfl) trivial
  | fallAsleep hat =>
    exact hC.set (.inl ⟨rfl, rfl, by rw [hat.pc]; rfl⟩)
      (fun _ => ⟨_, rfl⟩) (fun _ hc => hc.elim) trivial
  | store hat =>
    have hlock := hC.lock_of_at hat rfl
    exact hC.move hat (.inl hlock) (by rw [hlock]; rfl) (fun _ => id) trivial
  | @take p n i ok hat _ =>
    have hlock := hC.lock_of_at hat rfl
    cases ok <;> exact hC.move hat (.inl hlock) (by rw [hlock]; rfl) (fun _ => id) trivial
  | @kill p =>
    refine hC.set (.inl ⟨rfl, rfl, rfl⟩) (fun hs => ?_) (hC.locked p)
      (hC.here p)
    split_ifs at hs
    exact hC.asleep p hs
  | wakeUp hpc =>
    exact hC.set (.inl ⟨rfl, rfl, by rw [hpc]; rfl⟩)
      nofun (fun _ hc => hc.elim) trivial
  | @sched p | @yield p =>
    exact hC.set (.inl ⟨rfl, rfl, rfl⟩) nofun
      (hC.locked p) (hC.here p)

end

end Xv6.Pipes
