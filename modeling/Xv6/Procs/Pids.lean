/-
# `Xv6.Procs.Pids` — what a pid names, and whom `kill` hits

`allocpid` hands out `nextpid` and adds one to it, in 32 bits and without ever
looking at the pids in use.  `kill` compares pids in every slot of the table,
the UNUSED ones included, and `freeproc` leaves 0 there.  So a pid identifies a
process as long as the counter has not passed its limit, and `kill` hits the
process it names as long as it is not called with 0: `kill(0)` finds an UNUSED
slot, sets `killed` there, and the next process in that slot is born killed,
because `allocproc` does not touch the field.

**Proved here.**

  * exactly when `kill` hits the process it names, and what follows for the `killed`
    flag along a run (`kill_named_only`)
  * pids are positive and distinct until the counter wraps (`pids_identify`)
-/
import Xv6.Procs.Delivery

namespace Xv6.Procs

open Machine List

variable {N : Nat}

/-! ## What a step does to pids, serial numbers and `killed` -/

variable {s t : Sys N} {q p r : Fin N} {a : Act N} {h : List (Sys N × Act N)} {E R : List Entry}

theorem nextpid_of_step (hst : step s a = some t) : t.nextpid = match a with
    | .alloc _ _ => s.nextpid + 1
    | _ => s.nextpid := by
  have hrouse : ∀ c q, (rouse s c q).nextpid = s.nextpid := fun c q => by unfold rouse; split <;> rfl
  cases next_of_step hst with
  | walk ha _ _ => rcases ha with ⟨c, rfl⟩ | rfl <;> rfl
  | reap ha _ _ _ _ => rcases ha with rfl | rfl <;> rfl
  | @alloc _ _ ok _ _ _ => cases ok <;> rfl
  | wakeInit _ _ hw | wakeParent _ _ hw =>
    rcases wakeupAt_eq hw with rfl | ⟨c, -, rfl⟩
    · rfl
    · exact hrouse c _
  | wake _ => exact hrouse _ _
  | _ => rfl

/-- An UNUSED slot has pid 0: `freeproc` and `procinit` leave it so. -/
theorem unused_pid (r : Run Init step h s) :
    ∀ q, (s.proc q).state = .unused → (s.proc q).pid = 0 := by
  induction r with
  | @init s hi =>
    intro q hq
    refine hi.pid q fun h => ?_
    rw [h, hi.runnable] at hq; cases hq
  | @step h s t a r hst ih =>
    intro q hq
    obtain ⟨z, hz, hm⟩ := slot_of_step (inv_history r) hst q
    rw [hm.state] at hq
    rw [hm.pid]
    cases hz with
    | same | adopt | enter | exitSched => exact ih q hq
    | hit _ =>
      split_ifs at hq
      exact ih q hq
    | live _ h => cases hq; cases h
    | free _ => rfl
    | _ => cases hq

/-! ## `kill` -/

/-- The loop of `kill` over the slots `qs`. -/
def killOver (s : Sys N) (pid : Int32) : List (Fin N) → Sys N × Int32
  | [] => (s, -1)
  | q :: qs => if (s.proc q).pid = pid then (killAt s q, 0) else killOver s pid qs

/-- `kill(pid)` with nobody in between: the table it leaves and its result. -/
def kill (s : Sys N) (pid : Int32) : Sys N × Int32 := killOver s pid (List.finRange N)

theorem killOver_cases (s : Sys N) (pid : Int32) : ∀ qs : List (Fin N), qs.Pairwise (· < ·) →
    (∃ q ∈ qs, (s.proc q).pid = pid ∧ (∀ r ∈ qs, r < q → (s.proc r).pid ≠ pid) ∧
      killOver s pid qs = (killAt s q, 0)) ∨
    ((∀ q ∈ qs, (s.proc q).pid ≠ pid) ∧ killOver s pid qs = (s, -1))
  | [], _ => .inr ⟨nofun, rfl⟩
  | q :: qs, hs => by
    obtain ⟨hlt, hs⟩ := pairwise_cons.mp hs
    by_cases hq : (s.proc q).pid = pid
    · refine .inl ⟨q, mem_cons_self, hq, fun r hr hrq => ?_, by simp [killOver, hq]⟩
      rcases mem_cons.mp hr with rfl | hr
      · exact absurd hrq (lt_irrefl _)
      · exact absurd (hlt r hr) (lt_asymm hrq)
    · have hk : killOver s pid (q :: qs) = killOver s pid qs := by simp [killOver, hq]
      rw [hk]
      rcases killOver_cases s pid qs hs with ⟨r, hr, hp, hfirst, he⟩ | ⟨hno, he⟩
      · refine .inl ⟨r, mem_cons_of_mem _ hr, hp, fun r' hr' hlt' => ?_, he⟩
        rcases mem_cons.mp hr' with rfl | hr'
        · exact hq
        · exact hfirst r' hr' hlt'
      · refine .inr ⟨fun r hr => ?_, he⟩
        rcases mem_cons.mp hr with rfl | hr
        · exact hq
        · exact hno r hr

/-- `kill` stops at the first slot with the pid. -/
theorem kill_cases (s : Sys N) (pid : Int32) :
    (∃ q, (s.proc q).pid = pid ∧ (∀ r < q, (s.proc r).pid ≠ pid) ∧ kill s pid = (killAt s q, 0)) ∨
    ((∀ q, (s.proc q).pid ≠ pid) ∧ kill s pid = (s, -1)) := by
  rcases killOver_cases s pid _ (pairwise_lt_finRange N) with ⟨q, -, hp, hfirst, he⟩ | ⟨hno, he⟩
  · exact .inl ⟨q, hp, fun r => hfirst r (mem_finRange r), he⟩
  · exact .inr ⟨fun q => hno q (mem_finRange q), he⟩

theorem goto_goto (pc pc' : PC N) : (s.goto p pc).goto p pc' = s.goto p pc' := by
  simp [Sys.goto, Sys.setProc]

theorem ret_goto (pc : PC N) (v : Int32) : (s.goto p pc).ret p v = s.ret p v := by
  simp [Sys.ret, Sys.goto, Sys.setProc]

theorem killAt_goto (pc : PC N) : killAt (s.goto p pc) q = (killAt s q).goto p pc := by
  by_cases h : q = p
  · subst h
    simp [killAt, Sys.goto, Sys.setProc]
  · simp only [killAt, Sys.goto, Sys.setProc, Function.update_of_ne h,
      Function.update_of_ne (Ne.symm h),
      Function.update_comm h]

section
variable {pid : Int32} (hl : ∀ q, (s.proc q).locked = false)
include hl

/-- One round of the loop. -/
theorem run_killScan {j : Nat} (hj : j < N) : run (s.goto p (.killScan pid j)) p =
    some (if (s.proc ⟨j, hj⟩).pid = pid then (killAt s ⟨j, hj⟩).ret p 0
      else s.goto p (.killScan pid (j + 1))) := by
  have hpc : ((s.goto p (.killScan pid j)).proc p).pc = .killScan pid j := by
    rw [Sys.goto, setProc_self]
  have hlock : ((s.goto p (.killScan pid j)).proc ⟨j, hj⟩).locked = false := by
    rw [Sys.goto, setProc_field (·.locked) s (by rfl), hl]
  have hpid : ((s.goto p (.killScan pid j)).proc ⟨j, hj⟩).pid = (s.proc ⟨j, hj⟩).pid :=
    by rw [Sys.goto, setProc_field (·.pid) s (by rfl)]
  simp only [run, hpc, dif_pos hj, hlock, hpid, goto_goto, killAt_goto, ret_goto, Bool.false_eq_true,
    if_false]
  rw [apply_ite some]

/-- `kill` alone, from slot `j` on. -/
theorem killScan_run (hr : (s.proc p).state = .running) (j : Nat) :
    ∃ n, exec step (s.goto p (.killScan pid j)) (replicate n (.run p)) =
      some ((killOver s pid ((finRange N).drop j)).1.ret p
        (killOver s pid ((finRange N).drop j)).2) := by
  have hstep : step (s.goto p (.killScan pid j)) (.run p) = run (s.goto p (.killScan pid j)) p :=
    if_pos (.inl (by rw [Sys.goto, setProc_field (·.state) s (by rfl), hr]))
  by_cases hj : j < N
  · rw [drop_eq_getElem_cons (by rwa [length_finRange]), getElem_finRange]
    rw [run_killScan hl hj] at hstep
    by_cases hp : (s.proc ⟨j, hj⟩).pid = pid
    · exact ⟨1, by simp [exec, hstep, killOver, hp]⟩
    · obtain ⟨n, hn⟩ := killScan_run hr (j + 1)
      exact ⟨n + 1, by simp [replicate_succ, exec, hstep, killOver, hp, hn]⟩
  · rw [drop_of_length_le (by simpa using hj)]
    have hpc : ((s.goto p (.killScan pid j)).proc p).pc = .killScan pid j := by
      rw [Sys.goto, setProc_self]
    exact ⟨1, by simp [exec, hstep, run, hpc, hj, ret_goto, killOver]⟩
termination_by N - j

/-- The steps of a call of `kill`, with nobody in between and no lock held, are `kill`. -/
theorem kill_run (hat : At s p .user) : ∃ n,
    exec step s (.call p (.kill pid) :: replicate n (.run p)) =
      some ((kill s pid).1.ret p (kill s pid).2) := by
  obtain ⟨n, hn⟩ := killScan_run hl hat.running 0
  exact ⟨n, by simpa [exec, step, call, hat.running, hat.pc, kill] using hn⟩

end

/-- What is asked of `kill(pid)`: it succeeds exactly when an allocated process
has the pid, and then sets that process's flag (and wakes it) and nothing else;
otherwise it returns -1 and changes nothing. -/
structure KillSpec (s : Sys N) (pid : Int32) : Prop where
  found : (kill s pid).2 = 0 ↔ ∃ q, (s.proc q).state ≠ .unused ∧ (s.proc q).pid = pid
  alone : (kill s pid).2 = 0 → ∃ q, (s.proc q).state ≠ .unused ∧ (s.proc q).pid = pid ∧
    (kill s pid).1 = s.setProc q { s.proc q with
      killed := true
      state := if (s.proc q).state = .sleeping then .runnable else (s.proc q).state }
  missed : (kill s pid).2 ≠ 0 → kill s pid = (s, -1)

section
variable {s : Sys N} {p : Fin N} {pid : Int32} {q : Fin N}

/-- Exactly when `kill` does what is asked: the pid is not 0, or the first slot
with pid 0 is not an UNUSED one.  (Or nothing changes: the flag in that UNUSED
slot is set already, and so is the flag of a process that has pid 0.) -/
def KillSafe (s : Sys N) (pid : Int32) : Prop :=
  pid = 0 → ∀ q, (s.proc q).state = .unused → (∀ r < q, (s.proc r).pid ≠ 0) →
    (s.proc q).killed = true ∧ ∃ r, (s.proc r).state ≠ .unused ∧ (s.proc r).pid = 0 ∧
      (s.proc r).killed = true ∧ (s.proc r).state ≠ .sleeping

theorem setProc_same (s : Sys N) {x : Proc N} (h : x = s.proc q) : s.setProc q x = s := by
  subst h
  simp only [Sys.setProc]
  congr 1
  funext r
  by_cases hr : r = q <;> simp [hr]

/-- A hit on a slot whose flag is set, of a process that does not sleep. -/
theorem killAt_same (hk : (s.proc q).killed = true) (hs : (s.proc q).state ≠ .sleeping) :
    killAt s q = s := by
  refine setProc_same s ?_
  rw [if_neg hs, ← hk]

theorem killSpec_iff (h0 : ∀ q, (s.proc q).state = .unused → (s.proc q).pid = 0) :
    KillSpec s pid ↔ KillSafe s pid := by
  rcases kill_cases s pid with ⟨q, hp, hfirst, he⟩ | ⟨hno, he⟩
  · constructor
    · rintro hS rfl r hr hrf
      -- `r` is the first slot with pid 0, hence the one `kill` took
      have hrq : r = q := by
        rcases lt_trichotomy r q with hlt | heq | hgt
        · exact absurd (h0 r hr) (hfirst r hlt)
        · exact heq
        · exact absurd hp (hrf q hgt)
      subst hrq
      obtain ⟨v, hv, hvp, ht⟩ := hS.alone (by rw [he])
      have hne : v ≠ r := by rintro rfl; exact hv hr
      have ht' : killAt s r = killAt s v := by rwa [he] at ht
      -- the flag of `r` was set before, and so was that of `v`
      have hkr : (s.proc r).killed = true := by
        have := congrArg (fun u : Sys N => (u.proc r).killed) ht'
        simpa [killAt, setProc_self, setProc_ne _ _ hne.symm] using this
      have hkv : s.proc v = (killAt s v).proc v := by
        rw [← ht', killAt, setProc_ne _ _ hne]
      rw [killAt, setProc_self] at hkv
      refine ⟨hkr, v, hv, hvp, by rw [hkv], fun hs => ?_⟩
      have := congrArg Proc.state hkv
      simp [hs] at this
    · intro hc
      by_cases hqu : (s.proc q).state = .unused
      · have hp0 : pid = 0 := hp.symm.trans (h0 q hqu)
        obtain ⟨hkq, v, hv, hvp, hkv, hvs⟩ := hc hp0 q hqu fun r hr => hp0 ▸ hfirst r hr
        have hsame : killAt s q = killAt s v := by
          rw [killAt_same hkq (by rw [hqu]; simp), killAt_same hkv hvs]
        exact ⟨by rw [he]; exact ⟨fun _ => ⟨v, hv, hvp.trans hp0.symm⟩, fun _ => rfl⟩,
          fun _ => ⟨v, hv, hvp.trans hp0.symm, by rw [he, hsame]; rfl⟩,
          fun hne => absurd (by rw [he]) hne⟩
      · exact ⟨by rw [he]; exact ⟨fun _ => ⟨q, hqu, hp⟩, fun _ => rfl⟩,
          fun _ => ⟨q, hqu, hp, by rw [he]; rfl⟩, fun hne => absurd (by rw [he]) hne⟩
  · have hr : ¬ (kill s pid).2 = 0 := by
      have h1 : ¬ ((-1 : Int32) = 0) := by decide
      rwa [he]
    refine ⟨?_, fun _ => ⟨⟨fun h => absurd h hr, fun ⟨q, _, hq⟩ => absurd hq (hno q)⟩,
      fun h => absurd h hr, fun _ => he⟩⟩
    rintro - rfl q hq -
    exact absurd (h0 q hq) (hno q)

end

/-! ## The `killed` flag along a run -/

/-- No `kill(0)` is at an UNUSED slot. -/
def Spares (s : Sys N) (a : Act N) : Prop :=
  ∀ q, (s.proc q).state = .unused → ¬ Kills s a q

instance decSpares (s : Sys N) (a : Act N) : Decidable (Spares s a) :=
  inferInstanceAs (Decidable (∀ q, (s.proc q).state = .unused → ¬ Kills s a q))

/-- Every slot's flag was set by a `kill` of its process's pid, or by a fault of
its process, while it held that process; in an UNUSED slot it is clear. -/
theorem killed_history (r : Run Init step h s) (hok : ∀ x ∈ h, Spares x.1 x.2) :
    ∀ q, (s.proc q).killed = true →
      (s.proc q).state ≠ .unused ∧ ∃ x ∈ h, (x.1.proc q).uid = (s.proc q).uid ∧
        (x.1.proc q).state ≠ .unused ∧ (Kills x.1 x.2 q ∨ x.2 = .fault q) := by
  induction r with
  | @init s hi => intro q hq; rw [hi.killed q] at hq; cases hq
  | @step h s t a r hst ih =>
    intro q hq
    have ih := ih fun x hx => hok x (mem_append_left _ hx)
    have hsp : Spares s a := hok (s, a) (by simp)
    obtain ⟨z, hz, hm⟩ := slot_of_step (inv_history r) hst q
    rw [hm.killed] at hq
    rw [hm.state, hm.uid]
    have hkeep : (s.proc q).killed = true → (z.state = .unused → (s.proc q).state = .unused) →
        z.uid = (s.proc q).uid → z.state ≠ .unused ∧ ∃ x ∈ h ++ [(s, a)],
        (x.1.proc q).uid = z.uid ∧ (x.1.proc q).state ≠ .unused ∧
        (Kills x.1 x.2 q ∨ x.2 = .fault q) := by
      intro hk hu hz
      obtain ⟨hne, x, hx, hxu, hrest⟩ := ih q hk
      exact ⟨fun h => hne (hu h), x, mem_append_left _ hx, hxu.trans hz.symm, hrest⟩
    cases hz with
    | same | adopt | enter | exitSched => exact hkeep hq id rfl
    | live _ h => exact hkeep hq (fun hu => by cases hu; cases h) rfl
    | sleep _ | block _ | wakeUp _ _ | zombify _ => exact hkeep hq nofun rfl
    | hit ha =>
      have hne : (s.proc q).state ≠ .unused := by
        intro hun
        rcases ha with ha | ⟨-, hr⟩
        · exact hsp q hun ha
        · rw [hr] at hun; cases hun
      refine ⟨?_, (s, a), by simp, rfl, hne, ha.imp_right fun h => h.1⟩
      split_ifs
      · nofun
      · exact hne
    | born _ _ hu => exact absurd hu (ih q hq).1
    | free _ => cases hq

/-- `kill` on the tables of a run, and the `killed` flag along it. -/
theorem kill_named_only {h : List (Sys N × Act N)} {s : Sys N} (r : Run Init step h s) :
    (∀ pid, KillSpec s pid ↔ KillSafe s pid) ∧
    ((∀ x ∈ h, Spares x.1 x.2) →
      (∀ p np t, step s (.alloc p true) = some t → (t.proc p).pc = .forkParent np →
        (t.proc np).killed = false) ∧
      ∀ q, (s.proc q).killed = true → ∃ x ∈ h, (x.1.proc q).uid = (s.proc q).uid ∧
        (x.1.proc q).state ≠ .unused ∧ (Kills x.1 x.2 q ∨ x.2 = .fault q)) := by
  refine ⟨fun pid => killSpec_iff (unused_pid r), fun hok =>
    ⟨fun p np t hst hpc => ?_, fun q hq => (killed_history r hok q hq).2⟩⟩
  have hnext := next_of_step hst
  cases hnext with
  | walk ha _ _ => rcases ha with ⟨c, hc⟩ | hc <;> cases hc
  | reap ha _ _ _ _ => rcases ha with ha | ha <;> cases ha
  | @alloc _ np' _ hat hu _ =>
    have hne : np' ≠ p := by rintro rfl; rw [hat.running] at hu; cases hu
    obtain rfl : np' = np := by simpa [allocAt, Sys.goto, setProc_self] using hpc
    have hk : ((allocAt s p np' true).proc np').killed = (s.proc np').killed := by
      simp [allocAt, Sys.goto, setProc_ne _ _ hne, setProc_self]
    rw [hk]
    by_contra hkt
    exact (killed_history r hok np' (by simpa using hkt)).1 hu

/-- Init forks, and kills itself by its own pid. -/
def killSelf : List (Act 2) :=
  [.sched 0, .call 0 .fork, .run 0, .alloc 0 true, .run 0, .run 0, .call 0 (.kill 1), .run 0]

theorem kill_named_only_self : ∃ h s, Run Init step h s ∧ (s.proc (0 : Fin 2)).killed = true ∧
    (s.proc 1).killed = false ∧ KillSpec s 2 ∧
    ∃ x ∈ h, (x.1.proc 0).uid = (s.proc 0).uid ∧ (x.1.proc 0).state ≠ .unused ∧
      (Kills x.1 x.2 0 ∨ x.2 = .fault 0) := by
  have hview : (exec step booted killSelf).map (fun s => ((s.proc 0).killed, (s.proc 1).killed))
      = some (true, false) := by decide
  have hok : ∀ x ∈ hist step booted killSelf, Spares x.1 x.2 := by decide
  obtain ⟨s, r, hs⟩ := run_of_exec booted_init hview
  obtain ⟨hspec, hrun⟩ := kill_named_only r
  have hk : (s.proc 0).killed = true := (Prod.mk.inj hs).1
  exact ⟨_, s, r, hk, (Prod.mk.inj hs).2, (hspec 2).mpr fun h => absurd h (by decide),
    (hrun hok).2 0 hk⟩

/-- `kill(0)` on the table that `userinit` leaves returns 0 although no process
has pid 0; the process that `fork` then makes is killed before it has run. -/
theorem kill_zero_hits_unused :
    ¬ (∀ (N : Nat) (h : List (Sys N × Act N)) (s : Sys N), Run Init step h s →
        ∀ pid, KillSpec s pid) ∧
    ∃ (h : List (Sys 2 × Act 2)) (s : Sys 2), Run Init step h s ∧
      (∀ x ∈ h, ∀ q, x.2 ≠ .fault q ∧ ¬ ((x.1.proc q).state ≠ .unused ∧ Kills x.1 x.2 q)) ∧
      (s.proc 0).pc = .forkParent 1 ∧ (s.proc 1).state = .used ∧ (s.proc 1).killed = true := by
  constructor
  · intro hall
    have hS := hall 2 [] booted (Run.init booted_init) 0
    have hz : (kill booted 0).2 = 0 := by decide
    obtain ⟨q, hu, hp⟩ := hS.found.mp hz
    have hno : ∀ q, (booted.proc q).state ≠ .unused → (booted.proc q).pid ≠ 0 := by decide
    exact hno q hu hp
  · have hview : (exec step booted [.sched 0, .call 0 (.kill 0), .run 0, .run 0, .call 0 .fork,
        .run 0, .alloc 0 true]).map (fun s => ((s.proc 0).pc, (s.proc 1).state, (s.proc 1).killed))
        = some (.forkParent 1, .used, true) := by decide
    obtain ⟨s, r, hs⟩ := run_of_exec booted_init hview
    refine ⟨_, s, r, ?_, (Prod.mk.inj hs).1, (Prod.mk.inj (Prod.mk.inj hs).2).1,
      (Prod.mk.inj (Prod.mk.inj hs).2).2⟩
    intro x hx q
    refine ⟨fun hf => ?_, ?_⟩
    · have := mem_hist hx
      rw [hf] at this
      simp at this
    · revert x q
      decide

/-! ## The counter -/

/-- Allocated processes have positive pids, no two the same. -/
structure Identified (s : Sys N) : Prop where
  pos : ∀ q, (s.proc q).state ≠ .unused → 0 < (s.proc q).pid
  inj : ∀ q r, (s.proc q).state ≠ .unused → (s.proc r).state ≠ .unused →
    (s.proc q).pid = (s.proc r).pid → q = r

/-- `allocpid` is not called once the counter has passed its limit. -/
def Counts (s : Sys N) : Act N → Prop
  | .alloc _ _ => 0 < s.nextpid
  | _ => True

instance decCounts (s : Sys N) (a : Act N) : Decidable (Counts s a) :=
  match a with
  | .alloc _ _ => inferInstanceAs (Decidable (0 < s.nextpid))
  | .call _ _ | .run _ | .copyout _ _ | .sched _ | .yield _ | .wake _ | .fault _ => .isTrue trivial

/-- The pids in use lie below the counter, until it wraps. -/
structure Below (s : Sys N) : Prop extends Identified s where
  lt : 0 < s.nextpid → ∀ q, (s.proc q).state ≠ .unused → (s.proc q).pid < s.nextpid

theorem lt_succ_of_pos {n : Int32} (h : 0 < n + 1) : n < n + 1 := by
  rw [Int32.lt_iff_toInt_lt] at h ⊢
  have hle : n.toInt ≤ 2147483647 := n.toInt_le
  have hadd : (n + 1).toInt = (n.toInt + 1).bmod (2 ^ 32) := Int32.toInt_add n 1
  have hpos : (0 : Int32).toInt = 0 := rfl
  rw [hadd] at h ⊢
  rw [Int.bmod_def] at h ⊢
  split at h <;> rename_i hif
  · rw [if_pos hif]; omega
  · omega

theorem below_init (hi : Init s) : Below s := by
  have hq : ∀ q, (s.proc q).state ≠ .unused → q = s.initproc := fun q hu =>
    by_contra fun hn => hu (hi.unused q hn)
  refine ⟨⟨fun q hu => ?_, fun q r hu hu' _ => (hq q hu).trans (hq r hu').symm⟩, fun _ q hu => ?_⟩
  · rw [hq q hu, hi.initPid]; decide
  · rw [hq q hu, hi.initPid, hi.nextpid]; decide

/-- A slot in use was in use before, with the same pid, or has just got the counter's value. -/
theorem pid_of_step (hI : Inv E R s) (hst : step s a = some t) (hu : (t.proc q).state ≠ .unused) :
    (s.proc q).state ≠ .unused ∧ (t.proc q).pid = (s.proc q).pid ∨
      ∃ p, a = .alloc p true ∧ (s.proc p).pc = .forkScan q ∧ (t.proc q).pid = s.nextpid := by
  obtain ⟨z, hz, hm⟩ := slot_of_step hI hst q
  rw [hm.state] at hu
  rw [hm.pid]
  cases hz with
  | same | adopt | enter | exitSched => exact .inl ⟨hu, rfl⟩
  | live h _ => exact .inl ⟨fun h' => by simp [h', stage] at h, rfl⟩
  | sleep h | block h | wakeUp h _ | zombify h => exact .inl ⟨by rw [h]; simp, rfl⟩
  | hit _ =>
    split_ifs at hu with hs
    · exact .inl ⟨by rw [hs]; simp, rfl⟩
    · exact .inl ⟨hu, rfl⟩
  | born ha hat _ => exact .inr ⟨_, ha, hat.pc, rfl⟩
  | free _ => exact absurd rfl hu

theorem Below.step (hI : Inv E R s) (hB : Below s) (hc : Counts s a)
    (hst : step s a = some t) : Below t := by
  have hpid := fun q => pid_of_step (q := q) hI hst
  have hn := nextpid_of_step hst
  -- the new pid is above all the others
  have hnew : ∀ {q r : Fin N}, (∃ p, a = .alloc p true ∧ (s.proc p).pc = .forkScan q ∧
      (t.proc q).pid = s.nextpid) → (s.proc r).state ≠ .unused ∧ (t.proc r).pid = (s.proc r).pid →
      (t.proc r).pid < (t.proc q).pid := by
    rintro q r ⟨p, rfl, -, hq⟩ ⟨hr, hrp⟩
    rw [hrp, hq]
    exact hB.lt hc r hr
  refine ⟨⟨fun q hu => ?_, fun q r hu hu' he => ?_⟩, fun hpos q hu => ?_⟩
  · rcases hpid q hu with ⟨hs, hp⟩ | ⟨p, rfl, -, hp⟩ <;> rw [hp]
    exacts [hB.pos q hs, hc]
  · rcases hpid q hu with hq | hq <;> rcases hpid r hu' with hr | hr
    · rw [hq.2, hr.2] at he
      exact hB.inj q r hq.1 hr.1 he
    · exact absurd (he ▸ hnew hr hq) Int32.lt_irrefl
    · exact absurd (he ▸ hnew hq hr) Int32.lt_irrefl
    · obtain ⟨p, rfl, hp, -⟩ := hq
      obtain ⟨_, he, hp', -⟩ := hr
      cases he
      rw [hp] at hp'
      exact Fin.ext (PC.forkScan.inj hp')
  · rw [hn] at hpos ⊢
    rcases hpid q hu with ⟨hs, hp⟩ | ⟨p, rfl, -, hp⟩ <;> rw [hp]
    · split at hpos
      · exact Int32.lt_trans (hB.lt hc q hs) (lt_succ_of_pos hpos)
      · exact hB.lt hpos q hs
    · exact lt_succ_of_pos hpos

theorem below_run (r : Run Init step h s) (hok : ∀ x ∈ h, Counts x.1 x.2) : Below s := by
  induction r with
  | init hi => exact below_init hi
  | @step h s t a r hst ih =>
    exact (ih fun x hx => hok x (mem_append_left _ hx)).step (inv_history r)
      (hok (s, a) (by simp)) hst

/-- As long as the counter has not passed its limit, pids are positive and
distinct, and `fork` returns a positive number. -/
theorem pids_identify {h : List (Sys N × Act N)} {s : Sys N} (r : Run Init step h s)
    (hok : ∀ x ∈ h, Counts x.1 x.2) :
    Identified s ∧ (∀ x ∈ h, Identified x.1) ∧
    ∀ p np t, (s.proc p).pc = .forkRunnable np → step s (.run p) = some t → 0 < (t.proc p).a0 := by
  have hall := Run.forall_states
    (fun h s r hok => (below_run r hok).toIdentified) r hok
  refine ⟨hall.2, hall.1, fun p np t hpc hst => ?_⟩
  have hborn := (inv_history r).born p np (by rw [hpc]; rfl)
  have hres : (t.proc p).a0 = (s.proc np).pid := by
    simp only [step] at hst
    split_ifs at hst
    simp only [run, hpc] at hst
    split_ifs at hst
    cases hst; rw [Sys.ret, setProc_self]
  rw [hres]
  exact hall.2.pos np (by rw [hborn.1]; simp)

theorem pids_identify_child : ∃ h s, Run Init step h s ∧ (s.proc (1 : Fin 2)).state = .used ∧
    (s.proc 1).pid = 2 ∧ (∀ x ∈ h, Counts x.1 x.2) ∧ Identified s := by
  have hview : (exec step booted (forkExitWait.take 4)).map
      (fun s => ((s.proc 1).state, (s.proc 1).pid)) = some (.used, 2) := by decide
  obtain ⟨s, r, hs⟩ := run_of_exec booted_init hview
  have hok : ∀ x ∈ hist step booted (forkExitWait.take 4), Counts x.1 x.2 := by decide
  exact ⟨_, s, r, (Prod.mk.inj hs).1, (Prod.mk.inj hs).2, hok, (pids_identify r hok).1⟩

/-- The table between two children of init. -/
def childless (n : Int32) (u : Nat) (a : Int32) (v : Nat) (c : Option Nat) : Sys 2 where
  proc := fun p =>
    if p = 0 then ⟨.running, none, false, 0, 1, none, false, .user, a, none, 0, none⟩
    else ⟨.unused, none, false, 0, 0, none, false, .dead, 0, none, v, c⟩
  waitLock := none
  nextpid := n
  initproc := 0
  nextuid := u

/-- One child, from `fork` to `wait`. -/
def oneChild : List (Act 2) := forkExitWait.tail

/-- The whole of a table of two slots. -/
def view (s : Sys 2) : Proc 2 × Proc 2 × Option (Fin 2) × Int32 × Fin 2 × Nat :=
  (s.proc 0, s.proc 1, s.waitLock, s.nextpid, s.initproc, s.nextuid)

theorem view_injective : Function.Injective view := by
  rintro ⟨f, l, n, i, u⟩ ⟨f', l', n', i', u'⟩ h
  simp only [view, Prod.mk.injEq] at h
  obtain ⟨h0, h1, rfl, rfl, rfl, rfl⟩ := h
  have hf : f = f' := by
    funext p
    match p with
    | 0 => exact h0
    | 1 => exact h1
  rw [hf]

theorem exec_of_view {s t : Sys 2} {as : List (Act 2)}
    (h : (exec step s as).map view = some (view t)) : exec step s as = some t := by
  obtain ⟨u, hu, hv⟩ := Option.map_eq_some_iff.mp h
  rw [hu, view_injective hv]

/-- A child more leaves the table as it was, and the counter one higher. -/
theorem oneChild_exec (n : Int32) (u : Nat) (a : Int32) (v : Nat) (c : Option Nat) :
    exec step (childless n u a v c) oneChild = some (childless (n + 1) (u + 1) n u (some 0)) :=
  exec_of_view rfl

/-- So the counter takes every value. -/
theorem counter_reaches (k : Nat) :
    ∃ h u a v c, Run Init step h (childless (2 + Int32.ofNat k) u a v c) := by
  induction k with
  | zero =>
    have hboot : exec step booted [.sched 0] = some (childless 2 1 0 0 none) := exec_of_view rfl
    exact ⟨_, _, _, _, _, exec_run _ (Run.init booted_init) hboot⟩
  | succ k ih =>
    obtain ⟨h, u, a, v, c, r⟩ := ih
    have hsum : 2 + Int32.ofNat k + 1 = 2 + Int32.ofNat (k + 1) := by
      rw [Int32.ofNat_add, Int32.add_assoc]; rfl
    have r' := exec_run _ r (oneChild_exec _ u a v c)
    rw [hsum] at r'
    exact ⟨_, _, _, _, _, r'⟩

/-- The child number 2147483647 of init has the pid -2147483648, and that is what
`fork` returns. -/
theorem pids_identify_wraps :
    ¬ (∀ (N : Nat) (h : List (Sys N × Act N)) (s : Sys N), Run Init step h s → Identified s) ∧
    ∃ (h : List (Sys 2 × Act 2)) (s : Sys 2), Run Init step h s ∧
      (s.proc 1).state = .runnable ∧ (s.proc 1).pid = Int32.minValue ∧
      (s.proc 0).a0 = Int32.minValue := by
  obtain ⟨h, u, a, v, c, r⟩ := counter_reaches 2147483646
  have hview : (exec step (childless Int32.minValue u a v c)
      [.call 0 .fork, .run 0, .alloc 0 true, .run 0, .run 0]).map
        (fun s => ((s.proc 1).state, (s.proc 1).pid, (s.proc 0).a0)) =
      some (.runnable, Int32.minValue, Int32.minValue) := rfl
  obtain ⟨s, hs, hv⟩ := Option.map_eq_some_iff.mp hview
  simp only [Prod.mk.injEq] at hv
  have r' := exec_run _ r hs
  refine ⟨fun hall => ?_, _, s, r', hv⟩
  have hpos := (hall 2 _ s r').pos 1 (by rw [hv.1]; simp)
  rw [hv.2.1] at hpos
  exact absurd hpos (by decide)

end Xv6.Procs
