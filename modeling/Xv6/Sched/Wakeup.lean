/-
# `Xv6.Sched.Wakeup` — `sleep` never misses a `wakeup`

`sleep(chan, lk)` releases `lk` before it is SLEEPING, and it is off its CPU even
later.  In between it holds `p->lock`, which goes over to the scheduler of its
CPU in `swtch`; a `wakeup(chan)` has to take that lock to look at the slot.  So
whatever the interleaving, a `wakeup` that comes to the slot after the release
of `lk` finds the sleeper SLEEPING on `chan`, or RUNNABLE already.

`Dozing` is what holds from the release on, as long as no CPU has switched to
the process again: it is falling asleep on a CPU, with its lock held, or off
every CPU with its channel set.
-/
import Xv6.Sched.Inv

namespace Xv6.Sched

open Machine List

variable {M N L : Nat} {Y : Layout N} {s t : Sys M N L} {a : Act M N L} {c : Fin M} {x : Proc N L}
  {lk : Fin L}

/-! ## The steps the statement is about -/

/-- The CPU that makes the step. -/
def Act.cpu : Act M N L → Fin M
  | .tick c | .work c _ _ | .call c _ | .alloc c _ | .timer c | .intr c _ => c

/-- `release(lk)` inside `sleep(chan, lk)`, by `p`. -/
def Releases (s : Sys M N L) (a : Act M N L) (p : Fin N) (chan : Nat) (lk : Fin L) : Prop :=
  ∃ c, a = .tick c ∧ On s c p (.sleepRelease chan lk)

/-- A scheduler has loaded the registers of `p`. -/
def Where.arrives (p : Fin N) : Where N → Bool
  | .load q i => decide (q = p ∧ ¬ i < NREG)
  | _ => false

/-- The last step of a `swtch` to `p`. -/
def SwitchesTo (s : Sys M N L) : Act M N L → Fin N → Prop
  | .tick c, p => (s.cpu c).pos.arrives p = true
  | _, _ => False

instance decSwitchesTo (s : Sys M N L) (a : Act M N L) (p : Fin N) : Decidable (SwitchesTo s a p) :=
  match a with
  | .tick c => inferInstanceAs (Decidable ((s.cpu c).pos.arrives p = true))
  | .work _ _ _ | .call _ _ | .alloc _ _ | .timer _ | .intr _ _ => .isFalse id

/-- `q` calls `wakeup(chan)`. -/
def Wakes (s : Sys M N L) (a : Act M N L) (q : Fin N) (chan : Nat) : Prop :=
  ∃ c, a = .call c (.wakeup chan) ∧ On s c q (.op .run)

/-- The `wakeup(chan)` of `q` is at the slot of `p`. -/
def Visits (s : Sys M N L) (a : Act M N L) (q : Fin N) (chan : Nat) (p : Fin N) : Prop :=
  ∃ c, a = .tick c ∧ On s c q (.op (.wakeup chan p))

/-- The `wakeup(chan)` of `q` is through with the table and returns. -/
def Returns (s : Sys M N L) (a : Act M N L) (q : Fin N) (chan : Nat) : Prop :=
  ∃ c j, a = .tick c ∧ On s c q (.op (.wakeup chan j)) ∧ ¬ j < N

/-! ## What a step leaves alone -/

theorem cpu_next (hn : Next Y s a t) (hc : c ≠ a.cpu) : t.cpu c = s.cpu c := by
  cases hn with
  | walk ha _ _ => rfl
  | @alloc _ _ ok _ _ _ _ => cases ok <;> rfl
  | _ => first | rfl | exact setCpu_ne s _ hc

variable {p q : Fin N} {chan : Nat}

/-- Who comes to execute the thread of `p`. -/
theorem running_next (hn : Next Y s a t) (hc : (t.cpu c).pos = .running p) :
    (s.cpu c).pos = .running p ∨ SwitchesTo s a p := by
  by_cases hca : c = a.cpu
  · subst hca
    cases hn with
    | @enter c q i h hi =>
      obtain rfl : q = p := by simpa [Act.cpu, Sys.cpuAt, Sys.setCpu] using hc
      refine .inr ?_
      show (s.cpu c).pos.arrives q = true
      rw [h]; simpa [Where.arrives] using hi
    | walk _ _ _ => exact .inl hc
    | @alloc _ _ ok _ _ _ _ => cases ok <;> exact .inl hc
    | work _ => exact .inl (by simpa [Act.cpu, Sys.setCpu] using hc)
    | load _ _ => exact .inl (by simpa [Act.cpu, Sys.setCpu, Sys.goto, Sys.setProc] using hc)
    | _ => first | exact .inl hc | simp [Act.cpu, Sys.cpuAt, Sys.setCpu, Sys.goto, Sys.setProc] at hc
  · rw [cpu_next hn hca] at hc; exact .inl hc

/-- What a step does to the slot `p`. -/
inductive SlotStep (s : Sys M N L) (a : Act M N L) (t : Sys M N L) (p : Fin N) : Prop
  | same (h : t.proc p = s.proc p)
  | own (hpos : (s.cpu a.cpu).pos = .running p)
  | roused (hl : s.lock p = none) (chan : Nat) (h : t.proc p = (s.proc p).rouse chan)
  | hit (hl : s.lock p = none) (h : t.proc p = (s.proc p).hit)
  | chosen (hpos : (s.cpu a.cpu).pos = .setRunning p)
      (h : t.proc p = { s.proc p with state := .running })
  | reset (hl : s.lock p = none)
      (hs : (s.proc p).state = .unused ∨ (s.proc p).state = .used ∨ (s.proc p).state = .zombie)

/-- A step of the thread of `q` that changes no slot but that of `q`. -/
theorem SlotStep.thread (hpos : (s.cpu a.cpu).pos = .running q) (h : p ≠ q → t.proc p = s.proc p) :
    SlotStep s a t p := by
  by_cases hpq : p = q
  · subst hpq; exact .own hpos
  · exact .same (h hpq)

theorem slot_next (hI : Inv s) (hn : Next Y s a t) (p : Fin N) : SlotStep s a t p := by
  cases hn with
  | @setRunning c q h =>
    by_cases hq : p = q
    · subst hq; exact .chosen h (setProc_self s p _)
    · exact .same (setProc_ne s _ hq)
  | @wake c chan ret q h hl =>
    by_cases hq : p = q
    · subst hq; exact .roused hl chan (setProc_self s p _)
    · exact .same (setProc_ne s _ hq)
  | walk ha h _ =>
    rcases ha with rfl | ⟨f, rfl⟩ <;> exact .thread h.pos fun hq => goto_ne s _ hq
  | @rouse c r chan q h _ hl =>
    by_cases hr : p = r
    · subst hr; exact .own h.pos
    · by_cases hq : p = q
      · subst hq
        exact .roused hl chan ((goto_ne _ _ hr).trans (setProc_self s p _))
      · exact .same ((goto_ne _ _ hr).trans (setProc_ne s _ hq))
  | @hit c r pid q h hl =>
    by_cases hr : p = r
    · subst hr; exact .own h.pos
    · by_cases hq : p = q
      · subst hq; exact .hit hl ((goto_ne _ _ hr).trans (setProc_self s p _))
      · exact .same ((goto_ne _ _ hr).trans (setProc_ne s _ hq))
  | @forkSet c r np h hl =>
    by_cases hq : p = np
    · subst hq; exact .reset hl (.inr (.inl (hI.born r p (by rw [h.pc]; rfl))))
    · exact .thread h.pos fun hr => (goto_ne _ _ hr).trans (setProc_ne s _ hq)
  | @reap c r q h hl hz =>
    by_cases hq : p = q
    · subst hq; exact .reset hl (.inr (.inr hz))
    · exact .same (setProc_ne s _ hq)
  | @alloc c r ok np h hl hu =>
    by_cases hq : p = np
    · subst hq; exact .reset hl (.inl hu)
    · refine .thread h.pos fun hr => ?_
      cases ok <;> exact (goto_ne _ _ hr).trans (setProc_ne _ _ hq)
  | relock h | take h _ _ | sleepRelease h | exitRelease h | load h _ | leave h | drop h _ =>
    exact .thread h.pos fun hq => goto_ne _ _ hq
  | timer h | sleep h | exit h | saved h _ => exact .thread h.pos fun hq => goto_ne s _ hq
  | yieldState h | sleepChan h | sleepState h | exitState h | sched h | save h _ | sleepTidy h =>
    exact .thread h.pos fun hq => setProc_ne s _ hq
  | _ => exact .same rfl

/-! ## The sleeper -/

/-- On its CPU, past `release(lk)` in `sleep(chan, lk)`. -/
def Falling (chan : Nat) (x : Proc N L) : Prop :=
  match x.pc with
  | .sleepChan ch _ => ch = chan
  | .sleepState ch _ => ch = chan ∧ x.chan = some chan
  | .sched (.sleep _) | .save _ (.sleep _) | .load _ (.sleep _) => x.chan = some chan
  | _ => False

/-- Past `release(lk)` in `sleep(chan, lk)`, and not switched to since. -/
inductive Dozing (s : Sys M N L) (p : Fin N) (chan : Nat) : Prop
  | falling (c : Fin M) (h : (s.cpu c).pos = .running p) (w : Falling chan (s.proc p))
  | asleep (lk : Fin L) (hpc : (s.proc p).pc = .resumed (.sleep lk))
      (hch : (s.proc p).chan = some chan) (hoff : ∀ c, (s.cpu c).pos ≠ .running p)

theorem Falling.locked (h : Falling chan x) : x.pc.locked = true := by
  unfold Falling at h
  cases hpc : x.pc <;> rw [hpc] at h <;> first | rfl | exact h.elim

/-- A process that is off every CPU in `sleep` is SLEEPING, RUNNABLE, or (its lock
held by a scheduler that has chosen it) RUNNING. -/
theorem Inv.asleep_state (hI : Inv s) (hpc : (s.proc p).pc = .resumed (.sleep lk))
    (hoff : ∀ c, (s.cpu c).pos ≠ .running p) :
    (s.proc p).state = .sleeping ∨ (s.proc p).state = .runnable ∨
      ((s.proc p).state = .running ∧ s.lock p ≠ none) := by
  have hpark : Parked (s.proc p) → (s.proc p).state = .sleeping ∨ (s.proc p).state = .runnable := by
    intro hx
    have := hx.parks
    rw [hpc] at this
    cases hst : (s.proc p).state <;> rw [hst] at this <;> first | exact .inl rfl | exact .inr rfl |
      cases this
  by_cases hhas : ∃ c, (s.cpu c).pos.has p
  · obtain ⟨c, hc⟩ := hhas
    have hok := hI.cpu c
    have hlock : s.lock p ≠ none := by
      rcases Where.holds_of_cares (Where.cares_of_has hc) with hh | hr
      · rw [(hI.lock c p).mpr (hh _)]; simp
      · exact absurd hr (hoff c)
    unfold CpuOk at hok
    cases hpos : (s.cpu c).pos with
    | setProc q | save q i =>
      rw [hpos] at hok hc
      obtain rfl : q = p := hc
      exact .inr (.inr ⟨hok.state, hlock⟩)
    | load q i =>
      rw [hpos] at hok hc
      obtain rfl : q = p := hc
      exact .inr (.inr ⟨hok.1.state, hlock⟩)
    | running q =>
      rw [hpos] at hc
      obtain rfl : q = p := hc
      exact absurd hpos (hoff c)
    | back q =>
      rw [hpos] at hok hc
      obtain rfl : q = p := hc
      exact (hpark hok).imp_right .inl
    | _ => rw [hpos] at hc; exact hc.elim
  · exact (hpark (hI.off p fun c hc => hhas ⟨c, hc⟩)).imp_right .inl

/-- What stays the same in the slot of a process that is off every CPU in `sleep`. -/
structure Kept (x y : Proc N L) : Prop where
  pc : y.pc = x.pc
  chan : y.chan = x.chan
  awake : x.state ≠ .sleeping → y.state ≠ .sleeping

theorem kept_next (hI : Inv s) (hn : Next Y s a t)
    (hpc : (s.proc p).pc = .resumed (.sleep lk)) (hoff : ∀ c, (s.cpu c).pos ≠ .running p) :
    Kept (s.proc p) (t.proc p) := by
  cases slot_next hI hn p with
  | same h => rw [h]; exact ⟨rfl, rfl, id⟩
  | own hpos => exact absurd hpos (hoff _)
  | roused _ chan h =>
    rw [h]; unfold Proc.rouse
    split
    · exact ⟨rfl, rfl, fun _ => by simp⟩
    · exact ⟨rfl, rfl, id⟩
  | hit _ h =>
    rw [h]
    refine ⟨rfl, rfl, fun hs => ?_⟩
    simp [Proc.hit, hs]
  | chosen _ h => rw [h]; exact ⟨rfl, rfl, fun _ => by simp⟩
  | reset _ hs =>
    rcases hI.asleep_state hpc hoff with h | h | ⟨h, -⟩ <;> rw [h] at hs <;> simp at hs

theorem Falling.at {pc : PC N L} (h : Falling chan x) (hpc : x.pc = pc) :
    Falling chan { x with pc := pc } := by
  subst hpc; exact h

/-- A statement of the thread of `p` itself. -/
theorem Dozing.own (hI : Inv s) (hn : Next Y s a t) (hpos : (s.cpu a.cpu).pos = .running p)
    (w : Falling chan (s.proc p)) : Dozing t p chan := by
  -- which points `p` can be at
  have hat : ∀ {c : Fin M} {q : Fin N} {pc : PC N L}, c = a.cpu → On s c q pc →
      q = p ∧ Falling chan { s.proc p with pc := pc } := by
    rintro c q pc rfl h
    have := h.pos
    rw [hpos] at this
    cases this
    exact ⟨rfl, w.at h.pc⟩
  cases hn with
  | @work c i v _ =>
    refine .falling c ?_ w
    rwa [setCpu_self]
  | setLk => exact .falling _ hpos w
  | sleepChan h =>
    obtain ⟨rfl, hw⟩ := hat rfl h
    refine .falling _ hpos ?_
    rw [setProc_self]
    exact ⟨hw, congrArg some hw⟩
  | sleepState h =>
    obtain ⟨rfl, hw⟩ := hat rfl h
    refine .falling _ hpos ?_
    rw [setProc_self]; exact hw.2
  | @sched c q k h | @save c q i k h hi =>
    obtain ⟨rfl, hw⟩ := hat rfl h
    refine .falling _ hpos ?_
    rw [setProc_self]
    cases k with
    | sleep lk => exact hw
    | _ => exact hw.elim
  | @saved c q i k h hi =>
    obtain ⟨rfl, hw⟩ := hat rfl h
    refine .falling _ hpos ?_
    rw [goto_self]
    cases k with
    | sleep lk => exact hw
    | _ => exact hw.elim
  | @load c q i k h hi =>
    obtain ⟨rfl, hw⟩ := hat rfl h
    refine .falling c ?_ ?_
    · simpa [Sys.goto, Sys.setProc, Sys.setCpu] using h.pos
    · rw [goto_self]
      cases k with
      | sleep lk => exact hw
      | _ => exact hw.elim
  | @leave c q i k h =>
    obtain ⟨rfl, hw⟩ := hat rfl h
    cases k with
    | sleep lk =>
      have hself := goto_self (s.cpuAt c (.back q)) q (.resumed (.sleep lk))
      refine .asleep lk (by rw [hself]) (by rwa [hself]) fun d hd => ?_
      by_cases hdc : d = c
      · subst hdc; simp [Sys.goto, Sys.setProc, Sys.cpuAt, Sys.setCpu] at hd
      · have hd' : (s.cpu d).pos = .running q := by
          rwa [show ((s.cpuAt c (.back q)).goto q (.resumed (.sleep lk))).cpu d = s.cpu d from
            setCpu_ne s _ hdc] at hd
        exact hdc (hI.uniq d c q (by rw [hd']; rfl) (by rw [h.pos]; rfl))
    | _ => exact hw.elim
  | @walk _ c _ _ _ ha h _ =>
    have hc : c = a.cpu := by rcases ha with rfl | ⟨f, rfl⟩ <;> rfl
    exact (hat hc h).2.elim
  | take h w' _ | drop h w' => cases w' <;> exact (hat rfl h).2.elim
  | rouse h _ _ | alloc h _ _ | hit h _ | forkSet h _ | reap h _ _ | relock h | timer h
  | sleep h | exit h | yieldState h | sleepRelease h | exitState h | exitRelease h | sleepTidy h =>
    exact (hat rfl h).2.elim
  | rescan h _ | lockProc h _ | choose h _ | saveSched h _ | loadProc h _ | enter h _ | wake h _ =>
    exact absurd (h.symm.trans hpos) (by simp)
  | pass h | setRunning h | setProc h | savedSched h | clear h | releaseProc h | wakeSkip h | wakeEnd h
  | intr h => exact absurd (h.symm.trans hpos) (by simp)

/-- A process past the release of `lk` stays dozing until it is switched to. -/
theorem Dozing.step (hI : Inv s) (hn : Next Y s a t) (hD : Dozing s p chan)
    (hsw : ¬ SwitchesTo s a p) : Dozing t p chan := by
  cases hD with
  | falling c h w =>
    have hl : s.lock p = some c := (hI.lock c p).mpr (by rw [h]; exact ⟨rfl, w.locked⟩)
    have hsame : a.cpu ≠ c → Dozing t p chan := by
      -- nobody else touches the slot while its lock is held
      intro hac
      have hp : t.proc p = s.proc p := by
        cases slot_next hI hn p with
        | same h => exact h
        | own hpos => exact absurd (hI.uniq _ c p (by rw [hpos]; rfl) (by rw [h]; rfl)) hac
        | roused hl' _ _ | hit hl' _ | reset hl' _ => rw [hl] at hl'; cases hl'
        | chosen hpos _ =>
          have hl' := (hI.lock a.cpu p).mpr (by rw [hpos]; rfl)
          rw [hl] at hl'
          exact absurd (Option.some.inj hl').symm hac
      exact .falling c (by rwa [cpu_next hn (Ne.symm hac)]) (by rw [hp]; exact w)
    by_cases hac : a.cpu = c
    · exact .own hI hn (by rwa [hac]) w
    · exact hsame hac
  | asleep lk hpc hch hoff =>
    have hk := kept_next hI hn hpc hoff
    refine .asleep lk (hk.pc.trans hpc) (hk.chan.trans hch) fun c hc => ?_
    rcases running_next hn hc with h | h
    · exact hoff c h
    · exact hsw h

/-- A `wakeup` or a `kill` that comes to the slot finds the process SLEEPING on its
channel, or RUNNABLE. -/
theorem Dozing.found (hI : Inv s) (hD : Dozing s p chan) (hl : s.lock p = none) :
    ((s.proc p).state = .sleeping ∧ (s.proc p).chan = some chan) ∨
      (s.proc p).state = .runnable := by
  cases hD with
  | falling c h w =>
    rw [(hI.lock c p).mpr (by rw [h]; exact ⟨rfl, w.locked⟩)] at hl; cases hl
  | asleep lk hpc hch hoff =>
    rcases hI.asleep_state hpc hoff with h | h | ⟨-, h⟩
    · exact .inl ⟨h, hch⟩
    · exact .inr h
    · exact absurd hl h

/-- Off every CPU in `sleep`, and not SLEEPING any more. -/
structure Woken (s : Sys M N L) (p : Fin N) : Prop where
  pc : ∃ lk, (s.proc p).pc = .resumed (.sleep lk)
  off : ∀ c, (s.cpu c).pos ≠ .running p
  awake : (s.proc p).state ≠ .sleeping

theorem Woken.step (hI : Inv s) (hn : Next Y s a t) (hW : Woken s p) (hsw : ¬ SwitchesTo s a p) :
    Woken t p := by
  obtain ⟨⟨lk, hpc⟩, hoff, haw⟩ := hW
  have hk := kept_next hI hn hpc hoff
  refine ⟨⟨lk, hk.pc.trans hpc⟩, fun c hc => ?_, hk.awake haw⟩
  rcases running_next hn hc with h | h
  · exact hoff c h
  · exact hsw h

/-! ## The waker -/

def Ret.open : Ret N L → Option (Open N L)
  | .yield o => some o
  | _ => none

/-- The open point a thread is at, or goes back to after the `yield` it is in. -/
def PC.open : PC N L → Option (Open N L)
  | .op o | .yieldLock o | .yieldState o => some o
  | .sched k | .save _ k | .load _ k | .resumed k => k.open
  | _ => none

/-- A thread in an open section stays there, except by its own steps. -/
theorem open_next (hI : Inv s) (hn : Next Y s a t) {o : Open N L} (ho : (s.proc q).pc.open = some o) :
    (t.proc q).pc.open = some o ∨ ∃ c, c = a.cpu ∧ On s c q (.op o) := by
  -- not in its own thread, the program point stays
  have hkeep : (s.cpu a.cpu).pos ≠ .running q → (t.proc q).pc.open = some o := by
    intro hpos
    cases slot_next hI hn q with
    | same h | hit _ h | chosen _ h => rwa [h]
    | own h => exact absurd h hpos
    | roused _ chan h => rw [h]; unfold Proc.rouse; split <;> exact ho
    | reset hl hs =>
      -- such a process is on no CPU, at a point that is not open
      have hrun : (s.proc q).state ≠ .running := by rcases hs with h | h | h <;> rw [h] <;> simp
      have hpark := (hI.off q fun c hc => hI.nobody hl hrun c (Where.cares_of_has hc)).parks
      rcases hs with h | h | h <;> rw [h] at hpark <;> rw [show (s.proc q).pc = _ from hpark] at ho <;>
        cases ho
  by_cases hpos : (s.cpu a.cpu).pos = .running q
  swap
  · exact .inl (hkeep hpos)
  have hat : ∀ {c : Fin M} {r : Fin N} {pc : PC N L}, c = a.cpu → On s c r pc →
      r = q ∧ pc.open = some o := by
    rintro c r pc rfl h
    have hr := h.pos
    rw [hpos] at hr
    cases hr
    rw [h.pc] at ho
    exact ⟨rfl, ho⟩
  cases hn with
  | work _ | setLk => exact .inl ho
  | @walk _ c r o1 o' ha h _ =>
    have hc : c = a.cpu := by rcases ha with rfl | ⟨f, rfl⟩ <;> rfl
    obtain ⟨rfl, hw⟩ := hat hc h
    cases hw
    exact .inr ⟨c, hc, h⟩
  | rouse h _ _ | alloc h _ _ | hit h _ | forkSet h _ | reap h _ _ | relock h | sleep h | exit h
  | timer h => obtain ⟨rfl, hw⟩ := hat rfl h; cases hw; exact .inr ⟨_, rfl, h⟩
  | take h w => obtain ⟨rfl, hw⟩ := hat rfl h; rw [goto_self]; cases w <;> exact .inl hw
  | drop h w =>
    obtain ⟨rfl, hw⟩ := hat rfl h; rw [goto_self]; cases w <;> first | exact .inl hw | cases hw
  | yieldState h | sched h | save h _ =>
    obtain ⟨rfl, hw⟩ := hat rfl h; rw [setProc_self]; exact .inl hw
  | saved h _ | load h _ | leave h => obtain ⟨rfl, hw⟩ := hat rfl h; rw [goto_self]; exact .inl hw
  | sleepRelease h | sleepChan h | sleepState h | exitState h | exitRelease h | sleepTidy h =>
    exact absurd (hat rfl h).2 (by simp [PC.open, Ret.open])
  | rescan h _ | lockProc h _ | choose h _ | saveSched h _ | loadProc h _ | enter h _ | wake h _ =>
    exact absurd (h.symm.trans hpos) (by simp)
  | pass h | setRunning h | setProc h | savedSched h | clear h | releaseProc h | wakeSkip h | wakeEnd h
  | intr h => exact absurd (h.symm.trans hpos) (by simp)

/-- One statement of `wakeup(chan)` at slot `j`. -/
inductive Looks (s : Sys M N L) (c : Fin M) (t : Sys M N L) (q : Fin N) (chan j : Nat) : Prop
  | stay (h : (t.proc q).pc.open = some (.wakeup chan j))
  | self (r : Fin N) (hj : j = r) (hr : (s.cpu c).proc = some r)
      (h : (t.proc q).pc.open = some (.wakeup chan (j + 1)))
  | other (r : Fin N) (hj : j = r) (hr : r ≠ q) (hl : s.lock r = none)
      (ht : t.proc r = (s.proc r).rouse chan) (h : (t.proc q).pc.open = some (.wakeup chan (j + 1)))
  | last (hj : ¬ j < N)

theorem looks_next (hI : Inv s) (hn : Next Y s a t) {j : Nat} (hc : c = a.cpu)
    (hon : On s c q (.op (.wakeup chan j))) : Looks s c t q chan j := by
  -- whoever moves is this thread
  have hat : ∀ {d : Fin M} {r : Fin N} {pc : PC N L}, d = a.cpu → On s d r pc →
      r = q ∧ pc = .op (.wakeup chan j) := by
    rintro d r pc rfl h
    have hr := h.pos
    rw [← hc, hon.pos] at hr
    cases hr
    exact ⟨rfl, h.pc.symm.trans hon.pc⟩
  have hsame : (s.proc q).pc.open = some (.wakeup chan j) := by rw [hon.pc]; rfl
  have hne : ∀ {w : Where N}, (s.cpu a.cpu).pos = w → w = .running q := fun h => by
    rw [← hc, hon.pos] at h; exact h.symm
  cases hn with
  | work _ | setLk => exact .stay hsame
  | @walk _ d r o1 o' ha h w =>
    have hd : d = a.cpu := by rcases ha with rfl | ⟨f, rfl⟩ <;> rfl
    obtain rfl : d = c := hd.trans hc.symm
    obtain ⟨rfl, hpc⟩ := hat hd h
    cases hpc
    cases w with
    | wakeupSelf hr => exact .self _ rfl hr (by rw [goto_self]; rfl)
    | wakeupEnd hj => exact .last hj
  | @rouse d r chan' q' h hq hl =>
    obtain ⟨rfl, hpc⟩ := hat rfl h
    cases hpc
    have hrq : q' ≠ r := by
      rintro rfl
      exact hq ((hI.proc d q').mpr (by rw [h.pos]; rfl))
    exact .other q' rfl hrq hl ((goto_ne _ _ hrq).trans (setProc_self s q' _)) (by rw [goto_self]; rfl)
  | timer h => obtain ⟨rfl, hpc⟩ := hat rfl h; cases hpc; exact .stay (by rw [goto_self]; rfl)
  | take h w | drop h w => have := (hat rfl h).2; subst this; cases w
  | alloc h _ _ | reap h _ _ | hit h _ | forkSet h _ | save h _ | saved h _ | load h _ =>
    exact absurd (hat rfl h).2 (by simp)
  | relock h | sleep h | exit h | yieldState h | sleepRelease h | sleepChan h | sleepState h
  | exitState h | exitRelease h | sched h | leave h | sleepTidy h =>
    exact absurd (hat rfl h).2 (by simp)
  | rescan h _ | lockProc h _ | choose h _ | saveSched h _ | loadProc h _ | enter h _ | wake h _ =>
    exact absurd (hne h) (by simp)
  | pass h | setRunning h | setProc h | savedSched h | clear h | releaseProc h | wakeSkip h | wakeEnd h
  | intr h => exact absurd (hne h) (by simp)

/-- The `wakeup(chan)` of `q` has not passed the slot of `p` yet, or `p` is awake. -/
def Waker (s : Sys M N L) (q p : Fin N) (chan : Nat) : Prop :=
  (∃ j, j ≤ (p : Nat) ∧ (s.proc q).pc.open = some (.wakeup chan j)) ∨ Woken s p

/-- `wakeup(chan)` at the slot of a dozing process. -/
theorem Dozing.rouse (hI : Inv s) (hn : Next Y s a t) (hD : Dozing s p chan)
    (hsw : ¬ SwitchesTo s a p) (hl : s.lock p = none) (ht : t.proc p = (s.proc p).rouse chan) :
    Woken t p := by
  have hfound := hD.found hI hl
  cases hD with
  | falling c h w =>
    rw [(hI.lock c p).mpr (by rw [h]; exact ⟨rfl, w.locked⟩)] at hl; cases hl
  | asleep lk hpc hch hoff =>
    have hk := kept_next hI hn hpc hoff
    refine ⟨⟨lk, hk.pc.trans hpc⟩, fun c hc => ?_, ?_⟩
    · rcases running_next hn hc with h | h
      · exact hoff c h
      · exact hsw h
    · rw [ht]
      unfold Proc.rouse
      rcases hfound with h | h
      · rw [if_pos h]; simp
      · rw [if_neg (by rw [h]; simp), h]; simp

theorem Waker.step (hI : Inv s) (hn : Next Y s a t) (hqp : q ≠ p) (hD : Dozing s p chan)
    (hsw : ¬ SwitchesTo s a p) (hW : Waker s q p chan) : Waker t q p chan := by
  rcases hW with ⟨j, hj, ho⟩ | hW
  · rcases open_next hI hn ho with h | ⟨c, hc, hon⟩
    · exact .inl ⟨j, hj, h⟩
    · -- only the slot of `p` itself is looked at before `p` is passed
      have hnext : j ≠ p → (t.proc q).pc.open = some (.wakeup chan (j + 1)) → Waker t q p chan :=
        fun hne h => .inl ⟨j + 1, by omega, h⟩
      cases looks_next hI hn hc hon with
      | stay h => exact .inl ⟨j, hj, h⟩
      | self r hr hproc h =>
        refine hnext (fun hjp => hqp ?_) h
        have hk := (hI.proc c r).mp hproc
        rw [hon.pos] at hk
        exact hk.trans (Fin.ext (hr.symm.trans hjp))
      | other r hr hne hl ht h =>
        by_cases hrp : r = p
        · subst hrp; exact .inr (hD.rouse hI hn hsw hl ht)
        · exact hnext (fun hjp => hrp (Fin.ext (hr.symm.trans hjp))) h
      | last hjN => exact absurd (Nat.lt_of_le_of_lt hj p.isLt) hjN
  · exact .inr (hW.step hI hn hsw)

/-! ## Every run -/

theorem dozing_of_release (hrel : Releases s a p chan lk) (hst : step Y s a = some t) :
    Dozing t p chan := by
  obtain ⟨c, rfl, hon⟩ := hrel
  simp only [step, hon.pos, tickProc, hon.pc] at hst
  split_ifs at hst
  cases hst
  exact .falling c hon.pos (by rw [goto_self]; rfl)

theorem waker_of_call (hcall : Wakes s a q chan) (hst : step Y s a = some t) :
    Waker t q p chan := by
  obtain ⟨c, rfl, hon⟩ := hcall
  simp only [step, hon.pos, hon.pc, if_true, call, Option.some.injEq] at hst
  subst hst
  exact .inl ⟨0, Nat.zero_le _, by rw [goto_self]; rfl⟩

/-- At the slot of another process `wakeup` takes the lock and runs its body. -/
theorem visit_step (hI : Inv s) (hqp : q ≠ p) (hv : Visits s a q chan p) (hst : step Y s a = some t) :
    s.lock p = none ∧ t.proc p = (s.proc p).rouse chan := by
  obtain ⟨c, rfl, hon⟩ := hv
  have hproc : (s.cpu c).proc ≠ some p := fun h => by
    have hk := (hI.proc c p).mp h
    rw [hon.pos] at hk
    exact hqp hk
  simp only [step, hon.pos, tickProc, hon.pc, tickOpen, p.isLt, dif_pos, Fin.eta, if_neg hproc] at hst
  split_ifs at hst with hl
  cases hst
  exact ⟨hl, (goto_ne _ _ hqp.symm).trans (setProc_self s p _)⟩

/-- After `p` has released `lk` in `sleep(chan, lk)`, and as long as no CPU has
switched to it again, a `wakeup(chan)` of another process `q` finds it SLEEPING on
`chan` or RUNNABLE and leaves it not SLEEPING; and once such a `wakeup` has
returned, `p` is not SLEEPING. -/
theorem wakeup_never_missed {h g g' : List (Sys M N L × Act M N L)} {s₁ u s : Sys M N L}
    {a₁ b : Act M N L} {p q : Fin N} {chan : Nat} {lk : Fin L}
    (r : Run Init (step Y) (h ++ (s₁, a₁) :: (g ++ (u, b) :: g')) s)
    (hrel : Releases s₁ a₁ p chan lk) (hcall : Wakes u b q chan) (hqp : q ≠ p)
    (hsw : ∀ x ∈ g ++ (u, b) :: g', ¬ SwitchesTo x.1 x.2 p) :
    (∀ x ∈ g', ∀ t, step Y x.1 x.2 = some t → Visits x.1 x.2 q chan p →
      (((x.1.proc p).state = .sleeping ∧ (x.1.proc p).chan = some chan) ∨
        (x.1.proc p).state = .runnable) ∧ (t.proc p).state ≠ .sleeping) ∧
    ((∃ x ∈ g', Returns x.1 x.2 q chan) → (s.proc p).state ≠ .sleeping) := by
  -- the run is cut after the release of `lk`, and again after the call of `wakeup`
  obtain ⟨r1, v, hv, r2⟩ := r.split
  obtain ⟨r3, w, hw, r4⟩ := r2.split
  have hIv : Inv v ∧ Dozing v p chan :=
    ⟨(inv_run r1).step (next_of_step hv), dozing_of_release hrel hv⟩
  have hstep : ∀ (x : Sys M N L) (b : Act M N L) y, Inv x ∧ Dozing x p chan → ¬ SwitchesTo x b p →
      step Y x b = some y →
      Inv y ∧ Dozing y p chan := fun x b y hx hb hst =>
    ⟨hx.1.step (next_of_step hst), hx.2.step hx.1 (next_of_step hst) hb⟩
  have hIu : Inv u ∧ Dozing u p chan :=
    r3.inv_of_steps (fun x hx => hx ▸ hIv) hstep
      fun x hx => hsw x (mem_append_left _ hx)
  have hub : ¬ SwitchesTo u b p := hsw (u, b) (by simp)
  have hsw' : ∀ x ∈ g', ¬ SwitchesTo x.1 x.2 p := fun x hx =>
    hsw x (mem_append_right _ (mem_cons_of_mem _ hx))
  have hIw : (Inv w ∧ Dozing w p chan) ∧ Waker w q p chan :=
    ⟨hstep u b w hIu hub hw, waker_of_call hcall hw⟩
  have hstep' : ∀ (x : Sys M N L) (b : Act M N L) y,
      (Inv x ∧ Dozing x p chan) ∧ Waker x q p chan → ¬ SwitchesTo x b p →
      step Y x b = some y → (Inv y ∧ Dozing y p chan) ∧ Waker y q p chan := fun x b y hx hb hst =>
    ⟨hstep x b y hx.1 hb hst, hx.2.step hx.1.1 (next_of_step hst) hqp hx.1.2 hb⟩
  have hall := Run.forall_states
    (C := fun x b => ¬ SwitchesTo x b p)
    (fun k x rx hx => rx.inv_of_steps (fun y hy => hy ▸ hIw) hstep' hx) r4 hsw'
  refine ⟨fun x hx t hst hvis => ?_, ?_⟩
  · obtain ⟨⟨hI, hD⟩, -⟩ := hall.1 x hx
    obtain ⟨hl, ht⟩ := visit_step hI hqp hvis hst
    exact ⟨hD.found hI hl, (hD.rouse hI (next_of_step hst) (hsw' x hx) hl ht).awake⟩
  · rintro ⟨x, hx, c, j, hxa, hon, hj⟩
    -- the `wakeup` is past the slot of `p`, so `p` is awake and stays so
    have hW : Woken x.1 p := by
      rcases (hall.1 x hx).2 with ⟨i, hi, ho⟩ | hW
      · rw [hon.pc] at ho
        have : i = j := by simpa [PC.open] using ho.symm
        exact absurd (Nat.lt_of_le_of_lt hi p.isLt) (this ▸ hj)
      · exact hW
    obtain ⟨k1, k2, rfl⟩ := append_of_mem hx
    obtain ⟨-, y, hy, r5⟩ := Run.split k2 r4
    have hIx := (hall.1 x hx).1.1
    refine (r5.inv_of_steps (I := fun z : Sys M N L => Inv z ∧ Woken z p)
      (C := fun x b => ¬ SwitchesTo x b p) (fun z hz => ?_) (fun z b z' hz hb hst => ?_)
      fun z hz => hsw' z (mem_append_right _ (mem_cons_of_mem _ hz))).2.awake
    · subst hz
      exact ⟨hIx.step (next_of_step hy), hW.step hIx (next_of_step hy) (hsw' x hx)⟩
    · exact ⟨hz.1.step (next_of_step hst), hz.2.step hz.1 (next_of_step hst) hb⟩

/-- Init forks; it goes to sleep on CPU 0, and the child wakes it from CPU 1. -/
def sleepWake : List (Act 2 2 1) :=
  firstRun ++ [.call 0 .fork, .tick 0, .alloc 0 true, .tick 0] ++ List.replicate 38 (.tick 1) ++
    [.call 0 (.acquire 0), .call 0 (.sleep 7 0)] ++ List.replicate 37 (.tick 0) ++
    [.call 1 (.acquire 0), .call 1 (.wakeup 7)] ++ List.replicate 3 (.tick 1)

/-- The run of `sleepWake`; `release(lk)` is its step 80, the call of `wakeup` its step 117. -/
def sleepWakeHist : List (Sys 2 2 1 × Act 2 2 1) := hist (step layout) booted sleepWake

set_option maxRecDepth 20000 in
theorem sleepWakeHist_length : sleepWakeHist.length = 121 := by decide +kernel

theorem sleepWakeHist_lt (n : Nat) (hn : n < 121) : n < sleepWakeHist.length :=
  sleepWakeHist_length ▸ hn

def releaseStep : Sys 2 2 1 × Act 2 2 1 := sleepWakeHist.get ⟨80, sleepWakeHist_lt 80 (by decide)⟩

def wakeupStep : Sys 2 2 1 × Act 2 2 1 := sleepWakeHist.get ⟨117, sleepWakeHist_lt 117 (by decide)⟩

theorem sleepWakeHist_cut : sleepWakeHist = sleepWakeHist.take 80 ++ releaseStep ::
    ((sleepWakeHist.drop 81).take 36 ++ wakeupStep :: sleepWakeHist.drop 118) := by
  conv_lhs => rw [← take_append_drop 80 sleepWakeHist,
    drop_eq_getElem_cons (sleepWakeHist_lt 80 (by decide)),
    ← take_append_drop 36 (sleepWakeHist.drop (80 + 1)), drop_drop,
    drop_eq_getElem_cons (sleepWakeHist_lt 117 (by decide))]
  rfl

set_option maxRecDepth 20000 in
theorem wakeup_never_missed_sleepWake :
    ∃ s, Run Init (step layout) sleepWakeHist s ∧ (s.proc 0).state ≠ .sleeping := by
  have hsome : (exec (step layout) booted sleepWake).isSome = true := by decide +kernel
  obtain ⟨s, hs⟩ := Option.isSome_iff_exists.mp hsome
  have r : Run Init (step layout) sleepWakeHist s := exec_run sleepWake (Run.init booted_init) hs
  have hrel : Releases releaseStep.1 releaseStep.2 0 7 0 :=
    ⟨0, rfl, by decide +kernel, by decide +kernel⟩
  have hcall : Wakes wakeupStep.1 wakeupStep.2 1 7 :=
    ⟨1, rfl, by decide +kernel, by decide +kernel⟩
  have hsw : ∀ x ∈ (sleepWakeHist.drop 81).take 36 ++ wakeupStep :: sleepWakeHist.drop 118,
      ¬ SwitchesTo x.1 x.2 0 := by decide +kernel
  have hlast : (sleepWakeHist.drop 118)[2]? =
      some (sleepWakeHist.get ⟨120, sleepWakeHist_lt 120 (by decide)⟩) := by
    rw [List.getElem?_drop, List.getElem?_eq_getElem (sleepWakeHist_lt 120 (by decide))]; rfl
  have hret : ∃ x ∈ sleepWakeHist.drop 118, Returns x.1 x.2 1 7 :=
    ⟨_, mem_of_getElem? hlast, 1, 2, rfl, ⟨by decide +kernel, by decide +kernel⟩, by decide⟩
  exact ⟨s, r, (wakeup_never_missed (sleepWakeHist_cut ▸ r) hrel hcall (by decide) hsw).2 hret⟩

end Xv6.Sched
