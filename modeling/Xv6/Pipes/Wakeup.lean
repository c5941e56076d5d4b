/-
# `Xv6.Pipes.Wakeup` — which exits of `pipewrite` and `piperead` lose a wakeup

A process asleep on a channel of the pipe is STALE when the condition it waits
for has come true: on `&pi->nread` when the pipe is not empty or has no writer,
on `&pi->nwrite` when the pipe is not full or has no reader.  The kernel means
no sleeper to be stale while `pi->lock` is free.

The invariant says who is responsible in the meantime: a stale sleeper is OWED
a wakeup by the process that holds `pi->lock`, and the holder's program point
shows that it will still come by (`PC.covers`).  A writer in its loop owes one
to every reader; a `wakeup` in progress owes one to the slots it has not
visited.

The debt is paid on every exit but one.  `pipewrite` stores byte after byte and
wakes the readers only on its way out or before it sleeps; `killed(pr)` is
tested between two bytes, and its exit releases the lock and returns without a
`wakeup`.  `Clean` excludes that step: a killed writer leaving through the test
while the pipe holds bytes and somebody waits for them.

**Proved here.**

  * a run of clean steps never loses a wakeup (`no_lost_wakeup`)
  * the killed exit does lose one (`lost_wakeup`)
-/
import Xv6.Pipes.Steps

namespace Xv6.Pipes

open Machine

variable {N : Nat}

/-! ## Sleepers, stale sleepers, and the condition -/

/-- `x` waits on `c`: asleep, or holding its `p->lock` on the way to sleep. -/
def Proc.waits (x : Proc) (c : Chan) : Prop :=
  (x.state = .sleeping ∧ x.chan = some c) ∨ x.pc.enters c

/-- No wakeup is lost: while `pi->lock` is free no SLEEPING process is stale. -/
def NoLostWakeup (s : Sys N) : Prop :=
  s.lock = none → ∀ p c, (s.proc p).state = .sleeping → (s.proc p).chan = some c →
    ¬ Stale s.pi c

/-- The step is not a killed writer leaving `pipewrite` through `killed(pr)`
while the pipe is not empty and some process waits on `&pi->nread`. -/
def Clean (s : Sys N) : Act N → Prop
  | .run p =>
    ∀ n i, (s.proc p).pc = .wKilled n i → (s.proc p).killed = true →
      s.pi.nread ≠ s.pi.nwrite → ∀ q, ¬ (s.proc q).waits .nread
  | _ => True

/-! ## Debts -/

/-- The holder at this program point will still wake `q` on `c`. -/
def PC.covers (pi : Pipe) (c : Chan) (q : Nat) : PC → Prop
  | .wTest _ _ | .wKilled _ _ | .wFull _ _ | .wCopy _ _ =>
    c = .nread ∧ pi.readopen = true ∧ pi.writeopen = true
  | .rCopy _ _ => c = .nwrite
  | .wakeup c' j _ => c = c' ∧ j ≤ q
  | _ => False

/-- A stale waiter is owed a wakeup by the holder of the lock. -/
def Owed (s : Sys N) : Prop :=
  ∀ q c, (s.proc q).waits c → Stale s.pi c → ∃ h, s.lock = some h ∧ (s.proc h).pc.covers s.pi c q

section
variable {s t : Sys N} {p q : Fin N} {a : Act N} {pc pc' : PC} {x : Proc} {c : Chan} {e : Entry}
  {n : Int} {i : Nat}

theorem owed_init (h : Init s) : Owed s := by
  rintro q c (⟨hs, -⟩ | he) _
  · exact absurd hs (h.awake q)
  · simp [h.pc, PC.enters] at he

theorem Owed.by_holder (hO : Owed s) (hlock : s.lock = some p) (hat : At s p pc)
    (hw : (s.proc q).waits c) (hst : Stale s.pi c) : pc.covers s.pi c q := by
  obtain ⟨r, hr, hcov⟩ := hO q c hw hst
  obtain rfl : p = r := by rw [hlock] at hr; exact Option.some.inj hr
  rwa [hat.pc] at hcov

/-- A process that runs waits for nothing, unless it is on the way to sleep. -/
theorem At.not_waits (hat : At s p pc) (h : ¬ pc.enters c) : ¬ (s.proc p).waits c := by
  rintro (⟨hs, -⟩ | he)
  · rw [hat.running] at hs; cases hs
  · rw [hat.pc] at he; exact h he

/-- Something happens to `p` that concerns nobody's debts. -/
theorem Owed.setProc (hC : Ctl s) (hO : Owed s)
    (hpc : x.pc = (s.proc p).pc ∨ (s.proc p).pc.holds = false)
    (hw : ∀ c, x.waits c → (s.proc p).waits c) : Owed (s.setProc p x) := by
  intro q c hq hst
  have hq' : (s.proc q).waits c := by
    by_cases h : q = p
    · subst h; rw [setProc_self] at hq; exact hw c hq
    · rwa [setProc_ne _ _ h] at hq
  obtain ⟨r, hr, hcov⟩ := hO q c hq' hst
  refine ⟨r, hr, ?_⟩
  by_cases h : r = p
  · subst h
    rw [setProc_self]
    rcases hpc with h | h
    · rwa [h]
    · rw [(hC.holds r).mp hr] at h; cases h
  · rwa [setProc_ne _ _ h]

/-- `p` takes, keeps or drops the lock, and may change the pipe while it has it. -/
theorem owed_move {u : Pipe} {l : Option (Fin N)} (hat : At s p pc) (hent : ∀ c, ¬ pc'.enters c)
    (howed : ∀ q c, (s.proc q).waits c → Stale u c → l = some p ∧ pc'.covers u c q) :
    Owed ({ s with pi := u, lock := l }.goto p pc') := by
  intro q c hq hst
  have hqp : q ≠ p := by
    rintro rfl
    rw [Sys.goto, setProc_self] at hq
    rcases hq with ⟨hs, -⟩ | he
    · rw [show (s.proc q).state = _ from hat.running] at hs; cases hs
    · exact hent c he
  rw [Sys.goto, setProc_ne _ _ hqp] at hq
  obtain ⟨hl, hcov⟩ := howed q c hq hst
  refine ⟨p, hl, ?_⟩
  rwa [Sys.goto, setProc_self]

/-- The holder moves on inside the critical section. -/
theorem Owed.goto (hC : Ctl s) (hO : Owed s) (hat : At s p pc) (h : pc.holds = true)
    (h' : pc'.holds = true)
    (hcov : ∀ (q : Fin N) c, (s.proc q).waits c → pc.covers s.pi c q → pc'.covers s.pi c q) :
    Owed (s.goto p pc') := by
  have hlock := hC.lock_of_at hat h
  exact owed_move hat (fun c => PC.not_enters_of_holds h') fun q c hw hst =>
    ⟨hlock, hcov q c hw (hO.by_holder hlock hat hw hst)⟩

/-! ## One step -/

theorem owed_walk (hC : Ctl s) (hO : Owed s) (hat : At s p pc) (w : Walk s p pc pc') :
    Owed (s.goto p pc') := by
  obtain ⟨h, h'⟩ := w.holds
  refine hO.goto hC hat h h' fun q c hw hcov => ?_
  cases w with
  | wOpen _ _ => exact hcov
  | wAlive => exact hcov
  | wRoom _ => exact hcov
  | wDone | wSleep _ => exact ⟨hcov.1, Nat.zero_le _⟩
  | rEmpty _ _ | rReady | rAlive => exact hcov.elim
  | rDone => exact ⟨hcov, Nat.zero_le _⟩
  | self =>
    -- the caller's own slot: the caller is awake, so it is owed nothing
    refine ⟨hcov.1, Nat.lt_of_le_of_ne hcov.2 fun hpq => ?_⟩
    obtain rfl : p = q := Fin.ext hpq
    exact hat.not_waits id hw
  | wokenSleep hj | woken hj => exact absurd (Nat.lt_of_le_of_lt hcov.2 q.isLt) hj

/-- The lock was free, so nobody is stale on account of the pipe as it was. -/
theorem Owed.none_of_free (hO : Owed s) (hlock : s.lock = none) (hw : (s.proc q).waits c) :
    ¬ Stale s.pi c := by
  intro hst
  obtain ⟨r, hr, -⟩ := hO q c hw hst
  rw [hlock] at hr; cases hr

theorem owed_enter (hO : Owed s) (hat : At s p (.acquire e)) (hlock : s.lock = none) :
    Owed (enter s p e) := by
  cases e with
  | write n i | read n =>
    exact owed_move hat (fun _ => id) fun q c hw hst =>
      absurd hst (hO.none_of_free hlock hw)
  | close w =>
    -- the flag that is cleared makes one side stale, and the `wakeup` is for that side
    cases w with
    | true =>
      refine owed_move hat (fun _ => id) fun q c hw hst => ?_
      cases c with
      | nread => exact ⟨rfl, rfl, Nat.zero_le _⟩
      | nwrite => exact absurd hst (hO.none_of_free hlock hw)
    | false =>
      refine owed_move hat (fun _ => id) fun q c hw hst => ?_
      cases c with
      | nread => exact absurd hst (hO.none_of_free hlock hw)
      | nwrite => exact ⟨rfl, rfl, Nat.zero_le _⟩

/-- The exits owe nothing: no reader was there when the lock was taken, or `Clean` says
that there is nobody to wake. -/
theorem owed_leave (hC : Ctl s) (hO : Owed s) (hclean : Clean s (.run p)) (hat : At s p pc)
    (l : Leaves s p pc) : Owed ({ s with lock := none }.goto p .user) := by
  refine owed_move hat (fun _ => id) fun q c hw hst => ?_
  have hcov := hO.by_holder (hC.lock_of_at hat l.holds) hat hw hst
  cases l with
  | closed ho =>
    have hopen := hcov.2.1
    rw [ho] at hopen; cases hopen
  | wKilled hk =>
    obtain ⟨rfl, -, hwo⟩ := hcov
    rcases hst with hne | hst
    · exact absurd hw (hclean _ _ hat.pc hk hne q)
    · rw [hwo] at hst; cases hst
  | rKilled _ | release => exact hcov.elim

/-- A slot that is not on its way to sleep does not wait on `c` after its visit. -/
theorem not_waits_rouse (hC : Ctl s) (hl : (s.proc q).locked = false) :
    ¬ ((rouse s c q).proc q).waits c := by
  intro h
  have hent : ¬ (s.proc q).pc.enters c := fun he => by
    rw [hC.locked q c he] at hl; cases hl
  unfold rouse at h
  split at h
  · rw [setProc_self] at h
    rcases h with ⟨h, -⟩ | h
    · cases h
    · exact hent h
  · rename_i hn
    rcases h with h | h
    · exact hn h
    · exact hent h

theorem owed_rouse (hC : Ctl s) (hO : Owed s) {k : After} (hat : At s p (.wakeup c q k))
    (hne : q ≠ p) (hl : (s.proc q).locked = false) :
    Owed ((rouse s c q).goto p (.wakeup c (q + 1) k)) := by
  have hO' : Owed (rouse s c q) := by
    unfold rouse
    split
    · refine hO.setProc hC (.inl rfl) ?_
      rintro c' (⟨h, -⟩ | h)
      · cases h
      · exact .inr h
    · exact hO
  refine hO'.goto (ctl_rouse hC c q) (hat.rouse hne.symm) rfl rfl fun r c' hw hcov => ?_
  obtain ⟨rfl, hle⟩ := hcov
  refine ⟨rfl, Nat.lt_of_le_of_ne hle fun hqr => ?_⟩
  obtain rfl : q = r := Fin.ext hqr
  exact not_waits_rouse hC hl hw

/-- `sleep` up to the release of `pi->lock`: the sleeper's own condition is not
met, and it owes nothing to anybody. -/
theorem owed_sleep (hC : Ctl s) (hO : Owed s) (hat : At s p (.sleep c e)) :
    Owed ({ s with lock := none }.setProc p
      { s.proc p with locked := true, pc := .entering c e }) := by
  have hlock := hC.lock_of_at hat rfl
  have hhere := hC.here p
  rw [hat.pc] at hhere
  intro q c' hq hst
  by_cases h : q = p
  · subst h
    rw [setProc_self] at hq
    rcases hq with ⟨hq, -⟩ | hq
    · rw [show (s.proc q).state = _ from hat.running] at hq; cases hq
    · obtain rfl : c = c' := hq
      exact absurd hst hhere
  · rw [setProc_ne _ _ h] at hq
    exact (hO.by_holder hlock hat hq hst).elim

/-- Storing a byte makes readers stale; the writer in its loop covers them all. -/
theorem owed_store (hC : Ctl s) (hO : Owed s) (hat : At s p (.wCopy n i))
    (ch : UInt8) : Owed ({ s with pi := s.pi.store ch }.goto p (.wTest n (i + 1))) := by
  have hlock := hC.lock_of_at hat rfl
  obtain ⟨hro, hroom⟩ : s.pi.readopen = true ∧ s.pi.full = false := by
    have := hC.here p; rwa [hat.pc] at this
  refine owed_move hat (fun _ => id) fun q c hw _ => ⟨hlock, ?_⟩
  cases c with
  | nread =>
    refine ⟨rfl, hro, ?_⟩
    show s.pi.writeopen = true
    by_contra hwo
    have hcov := hO.by_holder hlock hat hw (.inr (by simpa using hwo))
    exact hwo hcov.2.2
  | nwrite =>
    -- there was room for the byte, so no writer can have been waiting for room
    exact absurd (hO.by_holder hlock hat hw (.inl hroom)).1 (by simp)

/-- Taking a byte makes writers stale; the reader in its copying loop covers them. -/
theorem owed_take (hC : Ctl s) (hO : Owed s) (hat : At s p (.rCopy n i))
    (hne : s.pi.nread ≠ s.pi.nwrite) (ok : Bool) :
    Owed ({ s with pi := { s.pi with nread := s.pi.nread + 1 } }.goto p
      (if ok then .rCopy n (i + 1) else .wakeup .nwrite 0 (.release i))) := by
  have hlock := hC.lock_of_at hat rfl
  -- the pipe is not empty, so a process waiting on `nread` would be stale already,
  -- and nobody here covers it
  have hcov : ∀ (q : Fin N) c, (s.proc q).waits c → c = .nwrite := by
    intro q c hw
    cases c with
    | nread => cases hO.by_holder hlock hat hw (.inl hne)
    | nwrite => rfl
  cases ok with
  | true => exact owed_move hat (fun _ => id) fun q c hw _ => ⟨hlock, hcov q c hw⟩
  | false => exact owed_move hat (fun _ => id) fun q c hw _ => ⟨hlock, hcov q c hw, Nat.zero_le _⟩

/-- One clean step. -/
theorem owed_next (hC : Ctl s) (hO : Owed s) (hclean : Clean s a) (h : Next s a t) : Owed t := by
  cases h with
  | call hat _ =>
    refine hO.setProc hC (.inr (by rw [hat.pc]; rfl)) ?_
    rintro c (⟨hs, -⟩ | hc)
    · rw [show (s.proc _).state = _ from hat.running] at hs; cases hs
    · exact hc.elim
  | enter hat hl => exact owed_enter hO hat hl
  | walk hat w => exact owed_walk hC hO hat w
  | leave hat l => exact owed_leave hC hO hclean hat l
  | rouse hat hne hl => exact owed_rouse hC hO hat hne hl
  | sleep hat => exact owed_sleep hC hO hat
  | fallAsleep hat =>
    refine hO.setProc hC (.inr (by rw [hat.pc]; rfl)) ?_
    rintro c' (⟨-, hc⟩ | hc)
    · exact .inr (by rw [hat.pc]; exact Option.some.inj hc)
    · exact hc.elim
  | fault hat =>
    exact hO.goto hC hat rfl rfl fun q c _ hcov => ⟨hcov.1, Nat.zero_le _⟩
  | store hat => exact owed_store hC hO hat _
  | take hat hne => exact owed_take hC hO hat hne _
  | kill =>
    refine hO.setProc hC (.inl rfl) ?_
    rintro c (⟨hs, -⟩ | he)
    · dsimp only at hs
      split_ifs at hs with hn
      exact absurd hs hn
    · exact .inr he
  | wakeUp hpc =>
    refine hO.setProc hC (.inr (by rw [hpc]; rfl)) ?_
    rintro c (⟨hs, -⟩ | hc)
    · cases hs
    · exact hc.elim
  | sched | yield =>
    refine hO.setProc hC (.inl rfl) ?_
    rintro c (⟨hs, -⟩ | hc)
    · cases hs
    · exact .inr hc

theorem inv_step (hI : Ctl s ∧ Owed s) (hclean : Clean s a) (h : step s a = some t) :
    Ctl t ∧ Owed t :=
  ⟨ctl_next hI.1 (next_of_step h), owed_next hI.1 hI.2 hclean (next_of_step h)⟩

end

/-! ## The result -/

/-- With the lock free nobody is owed anything, so nobody is stale. -/
theorem Owed.noLostWakeup {s : Sys N} (hO : Owed s) : NoLostWakeup s := by
  intro hlock p c hs hc hst
  obtain ⟨h, hh, -⟩ := hO p c (.inl ⟨hs, hc⟩) hst
  rw [hlock] at hh
  cases hh

/-- **No wakeup is lost in a run of clean steps**: for any number of processes
and any interleaving of `pipewrite`, `piperead`, `pipeclose`, `kill` and the
scheduler in which no killed writer leaves bytes behind for a waiting reader,
no state of the run with `pi->lock` free has a stale sleeper. -/
theorem no_lost_wakeup {h : List (Sys N × Act N)} {s : Sys N} (r : Run Init step h s)
    (hclean : ∀ x ∈ h, Clean x.1 x.2) :
    (∀ x ∈ h, NoLostWakeup x.1) ∧ NoLostWakeup s :=
  r.forall_states
    (fun _ _ r' hc => (r'.inv_of_steps (fun _ hi => And.intro (ctl_init hi) (owed_init hi))
      (fun _ _ _ => inv_step) hc).2.noLostWakeup)
    hclean

/-! ## Two processes: a reader asleep, and a writer killed between two bytes -/

/-- A fresh pipe and two processes that run user code. -/
def twoProcs : Sys 2 where
  pi := ⟨fun _ => 0, 0, 0, true, true⟩
  lock := none
  proc := fun _ => ⟨.running, none, false, false, .user⟩

theorem twoProcs_init : Init twoProcs where
  nread := rfl
  nwrite := rfl
  readopen := rfl
  writeopen := rfl
  lock := rfl
  pc _ := rfl
  locked _ := rfl
  awake _ := by simp [twoProcs]

/-- Process 0 reads from the empty pipe and goes to sleep. -/
def readerSleeps : List (Act 2) :=
  [.call 0 (.read 1), .run 0, .run 0, .run 0, .run 0, .run 0]

/-- Process 1 writes the first of two bytes, is killed, and leaves. -/
def writerDies : List (Act 2) :=
  [.call 1 (.write 2 0), .run 1, .run 1, .run 1, .run 1, .copyin 1 (some 65), .run 1,
    .kill 1, .run 1]

/-- Process 1 writes one byte, and wakes process 0. -/
def writerWakes : List (Act 2) :=
  [.call 1 (.write 1 0), .run 1, .run 1, .run 1, .run 1, .copyin 1 (some 65)] ++
    List.replicate 5 (.run 1)

theorem no_lost_wakeup_woken : ∃ h s, Run Init step h s ∧ s.lock = none ∧
    s.pi.nwrite = 1 ∧ (s.proc (0 : Fin 2)).state = .runnable ∧
    (∀ x ∈ h, NoLostWakeup x.1) ∧ NoLostWakeup s := by
  have hview : (exec step twoProcs (readerSleeps ++ writerWakes)).map (fun s =>
      (s.lock, s.pi.nwrite, (s.proc 0).state)) = some (none, 1, .runnable) := by decide
  have hkilled : ∀ x ∈ hist step twoProcs (readerSleeps ++ writerWakes),
      ∀ p, (x.1.proc p).killed = false := by decide
  obtain ⟨s, r, hs⟩ := run_of_exec twoProcs_init hview
  simp only [Prod.mk.injEq] at hs
  obtain ⟨hlock, hn, hst⟩ := hs
  refine ⟨_, s, r, hlock, hn, hst, no_lost_wakeup r ?_⟩
  intro x hx
  have hk := hkilled x hx
  rcases x with ⟨s', a⟩
  cases a with
  | run p =>
    intro n i _ hkill
    rw [show (s'.proc p).killed = false from hk p] at hkill
    cases hkill
  | _ => trivial

/-- **The killed exit loses a wakeup**: `pi->lock` is free, the pipe holds a
byte, and process 0 sleeps on `&pi->nread`. -/
theorem lost_wakeup : ∃ h s, Run Init step h s ∧ s.lock = none ∧
    (s.proc (0 : Fin 2)).state = .sleeping ∧ (s.proc 0).chan = some .nread ∧
    s.pi.nread ≠ s.pi.nwrite ∧ ¬ NoLostWakeup s := by
  have hsome : (exec step twoProcs (readerSleeps ++ writerDies)).isSome = true := by decide
  obtain ⟨s, hs⟩ := Option.isSome_iff_exists.mp hsome
  have hview : ((exec step twoProcs (readerSleeps ++ writerDies)).map fun s =>
      (s.lock, (s.proc 0).state, (s.proc 0).chan, s.pi.nread, s.pi.nwrite))
      = some (none, .sleeping, some .nread, 0, 1) := by decide
  simp only [hs, Option.map_some, Option.some.injEq, Prod.mk.injEq] at hview
  obtain ⟨hlock, hst, hc, hr, hw⟩ := hview
  have hne : s.pi.nread ≠ s.pi.nwrite := by rw [hr, hw]; decide
  exact ⟨_, s, exec_run _ (Run.init twoProcs_init) hs, hlock, hst, hc, hne,
    fun h => h hlock 0 .nread hst hc (.inl hne)⟩

end Xv6.Pipes
