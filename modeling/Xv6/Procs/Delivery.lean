/-
# `Xv6.Procs.Delivery` — every step keeps the family in order

The steps of `Xv6.Procs.Machine`, each put together from the updates of
`Xv6.Procs.Family`.  What a run has delivered is read off its history:
`exitLog` has an entry (uid, pid, status) for every process that became a
ZOMBIE, with the status it passed to `exit`; `reapLog` one for every child a
`wait` returned.

**Proved here.**

  * along every run an exit is delivered once (`exit_delivered_once`)
-/
import Xv6.Procs.Family
import Xv6.Procs.Steps

namespace Xv6.Procs

open Machine

variable {N : Nat}

/-! ## What a step delivers -/

/-- The exit a step performs. -/
def exits (s : Sys N) : Act N → List Entry
  | .run p =>
    match (s.proc p).pc with
    | .exitZombie st => [((s.proc p).uid, (s.proc p).pid, st)]
    | _ => []
  | _ => []

/-- The waiter and the child, when the step is a `wait` that takes a ZOMBIE. -/
def taken (s : Sys N) : Act N → Option (Fin N × Fin N)
  | .run p =>
    match (s.proc p).pc with
    | .waitScan addr j _ =>
      if h : j < N then
        if (s.proc ⟨j, h⟩).parent = some p ∧ (s.proc ⟨j, h⟩).locked = false ∧
            (s.proc ⟨j, h⟩).state = .zombie ∧ addr = 0 then some (p, ⟨j, h⟩)
        else none
      else none
    | _ => none
  | .copyout p true =>
    match (s.proc p).pc with
    | .waitScan _ j _ => if h : j < N then some (p, ⟨j, h⟩) else none
    | _ => none
  | _ => none

def entryOf (s : Sys N) (c : Fin N) : Entry := ((s.proc c).uid, (s.proc c).pid, (s.proc c).xstate)

def reaps (s : Sys N) (a : Act N) : List Entry := match taken s a with
  | some (_, c) => [entryOf s c]
  | none => []

def exitLog (h : List (Sys N × Act N)) : List Entry := h.flatMap fun x => exits x.1 x.2

def reapLog (h : List (Sys N × Act N)) : List Entry := h.flatMap fun x => reaps x.1 x.2

/-! ## Moves inside the kernel -/

section
variable {E R : List Entry} {s t : Sys N} {a : Act N} {p q np : Fin N} {pc₀ pc : PC N} {x : Proc N}
  {c : Option (Chan N)} {j : Nat} {q : Fin N} {addr : UInt64} {hk : Bool}

section
variable (hI : Inv E R s)
include hI

/-- `p`, which is not in `exit`, goes to a program point outside `wait_lock`. -/
theorem Inv.stepOut {l : Option (Fin N)} (hsame : Same x (s.proc p)) (hallows : x.pc.allows x.state)
    (hlock : l = s.waitLock ∧ (s.proc p).pc.holds = false ∨ s.waitLock = some p ∧ l = none)
    (hexit : (s.proc p).pc.exiting = false) (hholds : x.pc.holds = false)
    (hleave : p = s.initproc → x.pc.leaving = false) (hgone : x.pc.gone = false)
    (hchild : x.pc.child = none) : Inv E R ({ s with waitLock := l }.setProc p x) := by
  have hsc : Scanned s p x.pc := by
    cases h : x.pc <;> rw [h] at hholds <;> trivial
  refine hI.moveTo p x l hsame hallows (hlock.imp (fun h => ⟨h.1, hholds.trans h.2.symm⟩)
    fun h => ⟨.inl h.1, by rw [hholds]; exact h.2⟩) hleave
    (fun hg => ?_) (fun he => ?_) hsc (fun np hc => ?_) (fun np hc => ?_)
  · rw [hgone] at hg; cases hg
  · rw [hexit] at he; cases he
  · rw [hchild] at hc; cases hc
  · rw [hc] at hchild; cases hchild

/-- `p` was outside `wait_lock`. -/
theorem Inv.shift (hsame : Same x (s.proc p)) (hallows : x.pc.allows x.state)
    (hold : (s.proc p).pc.holds = false) (hholds : x.pc.holds = false)
    (hleave : p = s.initproc → x.pc.leaving = false) (hgone : x.pc.gone = false)
    (hchild : x.pc.child = none) : Inv E R (s.setProc p x) := by
  refine hI.stepOut hsame hallows (.inl ⟨rfl, hold⟩) ?_ hholds hleave hgone hchild
  cases h : (s.proc p).pc <;> rw [h] at hold <;> first | rfl | cases hold

/-- `p` goes from a program point outside `wait_lock` to another. -/
theorem Inv.goto (hat : At s p pc₀) (hold : pc₀.holds = false)
    (hallows : pc.allows .running) (hholds : pc.holds = false)
    (hleave : p = s.initproc → pc.leaving = false) (hchild : pc.child = none) :
    Inv E R (s.goto p pc) := by
  refine hI.shift (.of rfl rfl) ?_ (by rwa [hat.pc])
    hholds hleave (PC.not_gone_of_running hallows) hchild
  rwa [hat.running]

/-- A system call that does not hold `wait_lock` returns. -/
theorem Inv.ret (r : Int32) (hat : At s p pc₀) (hold : pc₀.holds = false) : Inv E R (s.ret p r) :=
  hI.shift (.of rfl rfl) (.inl hat.running)
    (by rwa [hat.pc]) rfl (fun _ => rfl) rfl rfl

/-- `p` goes on under `wait_lock`. -/
theorem Inv.scanOn (hlock : s.waitLock = some p ∨ s.waitLock = none)
    (hrun : (s.proc p).state = .running) (hholds : pc.holds = true)
    (hleave : p = s.initproc → pc.leaving = false)
    (hexit : (s.proc p).pc.exiting = true → pc.exiting = true) (hscan : Scanned s p pc) :
    Inv E R ({ s with waitLock := some p }.goto p pc) := by
  have hallows : pc.allows .running := by
    cases pc <;> first | rfl | cases hholds
  have hchild : pc.child = none := by
    cases pc <;> first | rfl | cases hholds
  refine hI.moveTo p { s.proc p with pc := pc } (some p)
    (.of rfl rfl) (by rwa [hrun])
    (.inr ⟨hlock, by rw [hholds]; rfl⟩) hleave (fun hg => ?_) hexit hscan
    (fun np hc => ?_) (fun np hc => ?_)
  · rw [PC.not_gone_of_running hallows] at hg; cases hg
  · rw [hchild] at hc; cases hc
  · have hc' : pc = .forkRunnable np := hc
    rw [hc'] at hchild; cases hchild

end

theorem PC.leaving_of_holds (h : pc.holds = true) : pc.leaving = pc.exiting := by
  cases pc <;> first | rfl | cases h

section
variable (hI : Inv E R s)
include hI

theorem Inv.holder (hat : At s p pc) (h : pc.holds = true) : s.waitLock = some p :=
  (hI.lock p).mpr (by rwa [hat.pc])

/-- The holder of `wait_lock` goes on, in `exit` or in `wait` as before. -/
theorem Inv.scanNext (hat : At s p pc₀) (h0 : pc₀.holds = true)
    (h : pc.holds = true) (hkind : pc.exiting = pc₀.exiting) (hscan : Scanned s p pc) :
    Inv E R (s.goto p pc) := by
  have hlock := hI.holder hat h0
  have hmove := hI.scanOn (.inl hlock) hat.running h (fun hp => ?_) (fun he => ?_) hscan
  · rwa [show ({ s with waitLock := some p } : Sys N) = s by rw [← hlock]] at hmove
  · have hinit := hI.init.1
    rw [← hp, hat.pc, PC.leaving_of_holds h0] at hinit
    rw [PC.leaving_of_holds h, hkind, hinit]
  · rwa [hkind, ← hat.pc]

/-- `p` gives `wait_lock` back, having been in `wait`. -/
theorem Inv.leaveScan (hat : At s p pc₀) (h0 : pc₀.holds = true)
    (hexit : pc₀.exiting = false) (hsame : Same x (s.proc p)) (hallows : x.pc.allows .running)
    (hx : x.state = .running) (hholds : x.pc.holds = false) (hleave : x.pc.leaving = false)
    (hchild : x.pc.child = none) : Inv E R ({ s with waitLock := none }.setProc p x) :=
  hI.stepOut hsame (by rwa [hx]) (.inr ⟨hI.holder hat h0, rfl⟩) (by rwa [hat.pc]) hholds
    (fun _ => hleave) (PC.not_gone_of_running hallows) hchild

/-- `p` stays where it is, and may change between SLEEPING, RUNNABLE and RUNNING. -/
theorem Inv.awaken (hx : x.pc = (s.proc q).pc)
    (hsame : Same x (s.proc q)) (hallows : (s.proc q).pc.allows x.state) :
    Inv E R (s.setProc q x) := by
  refine hI.moveTo q x s.waitLock hsame (by rwa [hx]) (.inl ⟨rfl, by rw [hx]⟩)
    (fun hq => ?_) (fun hg => ?_) (fun he => ?_) ?_ (fun np hc => ?_) (fun np hc => ?_)
  · rw [hx, hq]; exact hI.init.1
  · rwa [← hx]
  · rwa [hx]
  · rw [hx]; exact hI.scanned q
  · rw [hx] at hc; exact hI.born q np hc
  · rw [hx] at hc; exact hI.adopted q np hc

end

/-! ## `wakeup` and `kill` -/

theorem PC.allows_runnable (h : pc.allows .sleeping) : pc.allows .runnable := by
  cases pc <;> simp_all [PC.allows]

theorem inv_rouse (hI : Inv E R s) (c : Chan N) (q : Fin N) : Inv E R (rouse s c q) := by
  unfold rouse
  split
  · rename_i hs
    refine hI.awaken rfl (.of rfl (by rw [hs.1]; rfl)) ?_
    exact PC.allows_runnable (by rw [← hs.1]; exact hI.allows q)
  · exact hI

theorem inv_killAt (hI : Inv E R s) (q : Fin N) : Inv E R (killAt s q) := by
  unfold killAt
  split
  · rename_i hs
    refine hI.awaken rfl (.of rfl (by rw [hs]; rfl)) ?_
    exact PC.allows_runnable (by rw [← hs]; exact hI.allows q)
  · exact hI.awaken rfl (.of rfl rfl) (hI.allows q)

section
variable (hat : At s p pc)
include hat

/-- A process on a CPU stays where it is when another slot is written, -/
theorem At.setProc_ne (x : Proc N) (h : p ≠ q) : At (s.setProc q x) p pc :=
  ⟨by rw [Procs.setProc_ne _ _ h, hat.running], by rw [Procs.setProc_ne _ _ h, hat.pc]⟩

/-- or when any slot keeps its state and program point. -/
theorem At.setProc (hst : x.state = (s.proc q).state) (hpc : x.pc = (s.proc q).pc) :
    At (s.setProc q x) p pc :=
  ⟨(setProc_field (·.state) s hst p).trans hat.running, (setProc_field (·.pc) s hpc p).trans hat.pc⟩

theorem At.killAt (q : Fin N) : At (killAt s q) p pc := by
  by_cases hpq : p = q
  · subst hpq
    exact hat.setProc (by simp [hat.running]) rfl
  · exact hat.setProc_ne _ hpq

end

section
variable (hI : Inv E R s)
include hI

theorem inv_wakeupAt (h : wakeupAt s p c q = some t) :
    Inv E R t ∧ t.proc p = s.proc p ∧ t.waitLock = s.waitLock ∧ t.initproc = s.initproc := by
  unfold wakeupAt at h
  split_ifs at h with hqp
  · cases h; exact ⟨hI, rfl, rfl, rfl⟩
  · cases c with
    | none => cases h; exact ⟨hI, rfl, rfl, rfl⟩
    | some c =>
      cases h
      refine ⟨inv_rouse hI c q, ?_, ?_, ?_⟩ <;> unfold rouse <;> split <;>
        first | rfl | simp [Sys.setProc, Ne.symm hqp]

/-- One turn of `wakeup` in `exit`. -/
theorem inv_wakeTurn (hat : At s p pc₀)
    (hw : wakeupAt s p c q = some t) (h0 : pc₀.holds = true) (h : pc.holds = true)
    (hkind : pc.exiting = pc₀.exiting) (hscan : ∀ u : Sys N, Scanned u p pc₀ → Scanned u p pc) :
    Inv E R (t.goto p pc) := by
  obtain ⟨hI', hp, -, -⟩ := inv_wakeupAt hI hw
  have hat' : At t p pc₀ := ⟨by rw [hp, hat.running], by rw [hp, hat.pc]⟩
  have hold := hI'.scanned p
  rw [hat'.pc] at hold
  exact hI'.scanNext hat' h0 h hkind (hscan t hold)

/-! ## `fork` -/

/-- `allocproc` at a free slot, successful or not. -/
theorem inv_allocAt {ok : Bool} (hat : At s p (.forkScan j))
    (hnp : (s.proc np).state = .unused) : Inv E R (allocAt s p np ok) := by
  have hne : p ≠ np := by rintro rfl; rw [hat.running] at hnp; cases hnp
  have hdead : (s.proc np).pc = .dead := PC.dead_of_unused (by rw [← hnp]; exact hI.allows np)
  have hparent : (s.proc np).parent = none := hI.unused np hnp
  have hinit : np ≠ s.initproc := by
    intro h
    have := hI.init.1
    rw [← h, hdead] at this; cases this
  unfold allocAt
  cases ok with
  | true =>
    set child : Proc N := { s.proc np with
      pid := s.nextpid, state := .used, pc := .user, a0 := 0,
      uid := s.nextuid, creator := some (s.proc p).uid } with hchild
    have h1 : Inv E R ({ s with nextuid := s.nextuid + 1 }.setProc np child) :=
      hI.hatch hnp rfl rfl rfl rfl
    have hself : (({ s with nextuid := s.nextuid + 1 } : Sys N).setProc np child).proc np = child :=
      setProc_self _ _ _
    have hp : (({ s with nextuid := s.nextuid + 1 } : Sys N).setProc np child).proc p = s.proc p :=
      setProc_ne _ _ hne
    have h2 := h1.moveTo p { s.proc p with pc := .forkParent np } s.waitLock
      (by rw [hp]; exact .of rfl rfl)
      (.inl hat.running) (.inl ⟨rfl, by rw [hp, hat.pc]; rfl⟩) (fun _ => rfl)
      nofun (fun he => by rw [hp, hat.pc] at he; cases he) trivial
      (fun np' hc => by
        obtain rfl : np = np' := by simpa [PC.child] using hc
        rw [hself, hp]; exact ⟨rfl, rfl⟩)
      (fun np' hc => by cases hc)
    have := h2.nextpid (s.nextpid + 1)
    simpa [Sys.goto, Sys.setProc, hne] using this
  | false =>
    have h1 : Inv E R (s.setProc np (s.proc np).free) := by
      refine hI.moveTo np (s.proc np).free s.waitLock
        ⟨by rw [hparent]; rfl, rfl, rfl, fun hz => ?_, fun hz => ?_, by rw [hnp]; rfl⟩ (.inl rfl)
        (.inl ⟨rfl, by rw [hdead]; rfl⟩) (fun h => absurd h hinit)
        (fun _ => by rw [hdead]; rfl) (fun he => by rw [hdead] at he; cases he) trivial
        (fun np' hc => by cases hc) (fun np' hc => by cases hc)
      · rw [hnp] at hz; cases hz
      · rw [hnp] at hz; cases hz
    exact (h1.ret (-1) (hat.setProc_ne _ hne) rfl).nextpid (s.nextpid + 1)

/-- Two forks of one child would have one uid. -/
theorem Inv.child_unique (hp : (s.proc p).pc.child = some np)
    (hq : (s.proc q).pc.child = some np) : q = p := by
  have hact : ∀ r, (s.proc r).pc.child = some np → (s.proc r).state ≠ .unused := by
    intro r hr hu
    have hd := PC.dead_of_unused (by rw [← hu]; exact hI.allows r)
    rw [hd] at hr; cases hr
  have hcr := (hI.born p np hp).2
  rw [(hI.born q np hq).2] at hcr
  exact hI.uidInj q p (hact q hq) (hact p hp) (Option.some.inj hcr)

/-- `fork` writes `np->parent`. -/
theorem inv_forkParent (hat : At s p (.forkParent np)) (hlock : s.waitLock = none) :
    Inv E R ((s.setProc np { s.proc np with parent := some p }).goto p (.forkRunnable np)) := by
  have hchild : (s.proc p).pc.child = some np := by rw [hat.pc]; rfl
  obtain ⟨hused, hcr⟩ := hI.born p np hchild
  have hne : p ≠ np := (hI.child_ne hchild).symm
  have h1 : Inv E R (s.setProc np { s.proc np with parent := some p }) := by
    refine hI.setParent (by rw [hat.pc]; rfl) (.inl hcr) (by rw [hused]; simp)
      (fun q hq => by rw [hlock] at hq; cases hq) (fun q hq => ?_)
    obtain rfl := hI.child_unique hchild (PC.child_forkRunnable hq)
    rw [hat.pc] at hq; cases hq
  set s1 := s.setProc np { s.proc np with parent := some p }
  have hp : s1.proc p = s.proc p := setProc_ne _ _ hne
  have hself : s1.proc np = { s.proc np with parent := some p } := setProc_self _ _ _
  refine h1.moveTo p { s1.proc p with pc := .forkRunnable np } s.waitLock
    (.of rfl rfl) (.inl (by rw [hp]; exact hat.running))
    (.inl ⟨rfl, by rw [hp, hat.pc]; rfl⟩) (fun _ => rfl) nofun
    (fun he => by rw [hp, hat.pc] at he; cases he) trivial (fun np' hc => ?_) (fun np' hc => ?_)
  · obtain rfl : np = np' := by simpa [PC.child] using hc
    rw [hself, hp]; exact ⟨hused, hcr⟩
  · obtain rfl : np = np' := by simpa using hc
    rw [hself]

end

theorem setProc_comm (s : Sys N) {p : Fin N} (x y : Proc N) (h : p ≠ q) :
    (s.setProc p x).setProc q y = (s.setProc q y).setProc p x := by
  simp only [Sys.setProc, Function.update_comm h]

/-- `fork` makes the child RUNNABLE and returns its pid. -/
theorem inv_forkRunnable (hI : Inv E R s) (hat : At s p (.forkRunnable np)) :
    Inv E R ((s.setProc np { s.proc np with state := .runnable }).ret p (s.proc np).pid) := by
  have hchild : (s.proc p).pc.child = some np := by rw [hat.pc]; rfl
  have hused := (hI.born p np hchild).1
  have hne : p ≠ np := (hI.child_ne hchild).symm
  set x : Proc N := { s.proc p with pc := .user, a0 := (s.proc np).pid }
  have h1 : Inv E R (s.setProc p x) := hI.ret _ hat rfl
  have hnp : (s.setProc p x).proc np = s.proc np := setProc_ne _ _ (Ne.symm hne)
  have h2 : Inv E R ((s.setProc p x).setProc np
      { (s.setProc p x).proc np with state := .runnable }) := by
    refine h1.launch (by rwa [hnp]) (by rw [hnp, hI.adopted p np hat.pc]; simp)
      (fun q hq => ?_)
    by_cases hqp : q = p
    · subst hqp; rw [setProc_self] at hq; cases hq
    · rw [setProc_ne _ _ hqp] at hq
      exact hqp (hI.child_unique hchild hq)
  rw [hnp] at h2
  have heq : (s.setProc np { s.proc np with state := .runnable }).ret p (s.proc np).pid
      = (s.setProc p x).setProc np { s.proc np with state := .runnable } := by
    rw [setProc_comm _ _ _ hne, Sys.ret, setProc_ne _ _ hne]
  rwa [heq]

/-! ## `exit` and `wait` -/

theorem PC.not_leaving_of_init (hI : Inv E R s) (h : (s.proc p).pc.leaving = true) :
    p ≠ s.initproc := by
  rintro rfl
  rw [hI.init.1] at h; cases h

theorem NoChildBelow.succ (h : NoChildBelow s p j) (hj : j < N)
    (hn : (s.proc ⟨j, hj⟩).parent ≠ some p) : NoChildBelow s p (j + 1) := by
  intro q hq
  rcases Nat.lt_succ_iff_lt_or_eq.mp hq with hlt | heq
  · exact h q hlt
  · obtain rfl : q = ⟨j, hj⟩ := Fin.ext heq
    exact hn

theorem NoChildBelow.all (h : NoChildBelow s p j) (hj : ¬ j < N) : NoChildBelow s p N :=
  fun q hq => h q (Nat.lt_of_lt_of_le hq (Nat.not_lt.mp hj))

/-- `reparent` hands one child over to init. -/
theorem inv_reparentAt (hI : Inv E R s) {st : Int32} (hat : At s p (.reparent st j))
    (hj : j < N) (hq : (s.proc ⟨j, hj⟩).parent = some p) :
    Inv E R ((s.setProc ⟨j, hj⟩ { s.proc ⟨j, hj⟩ with parent := some s.initproc }).goto p
      (.wakeInit st j 0)) := by
  have hlock : s.waitLock = some p := hI.holder hat rfl
  have hinit : s.initproc ≠ p := (PC.not_leaving_of_init hI (by rw [hat.pc]; rfl)).symm
  have hgone : (s.proc s.initproc).pc.gone = false := by
    have := hI.init.1
    cases h : (s.proc s.initproc).pc <;> rw [h] at this <;> first | rfl | cases this
  have hheir : Heir E s ⟨j, hj⟩ s.initproc := by
    rcases (hI.parentOf _ p hq).2 with h | ⟨h, -⟩
    · exact .inr ⟨rfl, _, h, .inr ⟨p, rfl, by rw [hat.pc]; rfl⟩⟩
    · exact absurd h.symm hinit
  have h1 : Inv E R (s.setProc ⟨j, hj⟩ { s.proc ⟨j, hj⟩ with parent := some s.initproc }) := by
    refine hI.setParent hgone hheir (fun hu => ?_) (fun r hr => ?_) (fun r hr => ?_)
    · rw [hI.unused _ hu] at hq; cases hq
    · rw [hlock] at hr
      exact fun h => hinit (h ▸ (Option.some.inj hr).symm)
    · have hr' := hI.adopted r _ hr
      rw [hq] at hr'
      cases hr'
      rw [hat.pc] at hr; cases hr
  set s1 := s.setProc ⟨j, hj⟩ { s.proc ⟨j, hj⟩ with parent := some s.initproc }
  have hat' : At s1 p (.reparent st j) := hat.setProc rfl rfl
  have hscan := h1.scanned p
  rw [hat'.pc] at hscan
  refine h1.scanNext hat' rfl rfl rfl (NoChildBelow.succ hscan hj ?_)
  rw [setProc_self]
  exact fun h => hinit (Option.some.inj h)

/-- `wait` takes the ZOMBIE `c`. -/
theorem inv_reap (hI : Inv E R s) {c : Fin N} {copied : Bool}
    (hat : At s p (.waitScan addr j hk)) (hc : (s.proc c).state = .zombie) :
    Inv E (R ++ [entryOf s c]) (reap s p c copied) := by
  have hpc' : p ≠ c := by rintro rfl; rw [hat.running] at hc; cases hc
  have hproc : (s.setProc c (s.proc c).free).proc p = s.proc p := setProc_ne _ _ hpc'
  refine (hI.bury hc).leaveScan (hat.setProc_ne _ hpc') rfl rfl ?_ (.inl rfl) hat.running rfl rfl rfl
  rw [hproc]; exact .of rfl rfl

/-- Steps that write only a program point. -/
theorem Inv.walk (hI : Inv E R s) (hat : At s p pc₀) (w : Walk s p pc₀ pc) :
    Inv E R (s.goto p pc) := by
  have hscan := hI.scanned p
  rw [hat.pc] at hscan
  cases w with
  | exit hp => exact hI.goto hat rfl (.inl rfl) rfl (fun h => absurd h hp) rfl
  | fork | wait | kill | forkScan hj hu | notHim hj hp =>
    exact hI.goto hat rfl (.inl rfl) rfl (fun _ => rfl) rfl
  | reparent hj hp => exact hI.scanNext hat rfl rfl rfl (NoChildBelow.succ hscan hj hp)
  | reparented hj => exact hI.scanNext hat rfl rfl rfl (NoChildBelow.all hscan hj)
  | wakeInit hk | wakeParent hk => exact hI.scanNext hat rfl rfl rfl hscan
  | notMine hj hp =>
    exact hI.scanNext hat rfl rfl rfl fun hf => NoChildBelow.succ (hscan hf) hj hp
  | alive hj hp hz => exact hI.scanNext hat rfl rfl rfl nofun
  | scanned hj => exact hI.scanNext hat rfl rfl rfl fun hf => NoChildBelow.all (hscan hf) hj
  | tested => exact hI.scanNext hat rfl rfl rfl trivial

/-! ## One step of the machine -/

/-- Such steps deliver nothing. -/
theorem quiet_of_walk (ha : (∃ c, a = .call p c) ∨ a = .run p) (hat : At s p pc₀)
    (w : Walk s p pc₀ pc) : exits s a = [] ∧ reaps s a = [] := by
  rcases ha with ⟨c, rfl⟩ | rfl
  · exact ⟨rfl, rfl⟩
  · cases w with
    | notMine hj hp | alive hj _ hp | scanned hp => simp [exits, reaps, taken, hat.pc, hp]
    | _ => simp [exits, reaps, taken, hat.pc]

/-- A `wait` that takes `c` is in the log. -/
theorem taken_of_reap {c : Fin N} (h : step s a = some t)
    (ha : a = .run p ∨ a = .copyout p true) (hat : At s p (.waitScan addr c hk))
    (hp : (s.proc c).parent = some p) (hl : (s.proc c).locked = false)
    (hz : (s.proc c).state = .zombie) : taken s a = some (p, c) := by
  rcases ha with rfl | rfl
  · have haddr : addr = 0 := by
      by_contra hne
      simp [step, hat.running, run, hat.pc, scanAt, hp, hl, hz, hne] at h
    simp [taken, hat.pc, hp, hl, hz, haddr]
  · simp [taken, hat.pc]

theorem inv_step (hI : Inv E R s) (h : step s a = some t) :
    Inv (E ++ exits s a) (R ++ reaps s a) t := by
  have hquiet : exits s a = [] → reaps s a = [] → Inv E R t →
      Inv (E ++ exits s a) (R ++ reaps s a) t := fun he hr hI' => by
    rwa [he, hr, List.append_nil, List.append_nil]
  have hrun : ∀ {p pc}, At s p pc → (∀ st, pc ≠ .exitZombie st) →
      (∀ addr j hk, pc ≠ .waitScan addr j hk) → a = .run p → Inv E R t →
      Inv (E ++ exits s a) (R ++ reaps s a) t := by
    rintro p pc hat h1 h2 rfl hI'
    refine hquiet ?_ ?_ hI' <;> cases pc <;> simp_all [exits, reaps, taken, hat.pc]
  have hni : ∀ {p pc}, (s.proc p).pc = pc → pc.leaving = true → p ≠ s.initproc := fun hpc hl =>
    PC.not_leaving_of_init hI (by rwa [hpc])
  cases next_of_step h with
  | walk ha hat w =>
    obtain ⟨he, hr⟩ := quiet_of_walk ha hat w
    exact hquiet he hr (hI.walk hat w)
  | block hat =>
    exact hquiet rfl rfl (hI.shift
      (.of rfl (by rw [hat.running]; rfl))
      (.inl rfl) (by rw [hat.pc]; rfl) rfl (fun _ => rfl) rfl rfl)
  | noSlot hat hj | nobody hat hj => exact hrun hat (by simp) (by simp) rfl (hI.ret _ hat rfl)
  | alloc hat hu _ => exact hquiet rfl rfl (inv_allocAt hI hat hu)
  | setParent hat hl => exact hrun hat (by simp) (by simp) rfl (inv_forkParent hI hat hl)
  | launch hat _ => exact hrun hat (by simp) (by simp) rfl (inv_forkRunnable hI hat)
  | exitLock hat hl =>
    exact hrun hat (by simp) (by simp) rfl (hI.scanOn (.inr hl) hat.running rfl
      (fun h => absurd h (hni hat.pc rfl)) (fun _ => rfl) fun q hq => absurd hq (Nat.not_lt_zero _))
  | adopt hat hj hp => exact hrun hat (by simp) (by simp) rfl (inv_reparentAt hI hat hj hp)
  | wakeInit hat _ hw | wakeParent hat _ hw =>
    exact hrun hat (by simp) (by simp) rfl (inv_wakeTurn hI hat hw rfl rfl rfl fun _ hs => hs)
  | @zombify p st hat =>
    have he : exits s (.run p) = [((s.proc p).uid, (s.proc p).pid, st)] := by simp [exits, hat.pc]
    have hr : reaps s (.run p) = [] := by simp [reaps, taken, hat.pc]
    rw [he, hr, List.append_nil]
    exact hI.zombify hat.pc
  | @exitSched p hpc =>
    have hz : (s.proc p).state = .zombie := by have := hI.allows p; rwa [hpc] at this
    refine hquiet (by simp [exits, hpc]) (by simp [reaps, taken, hpc]) ?_
    exact hI.moveTo p _ s.waitLock (.of rfl rfl) (.inr hz)
      (.inl ⟨rfl, by rw [hpc]; rfl⟩) (fun h => absurd h (hni hpc rfl)) (fun _ => by rw [hpc]; rfl)
      (fun he => by rw [hpc] at he; cases he) trivial (fun _ hc => by cases hc)
      (fun _ hc => by cases hc)
  | waitLock hat hl =>
    exact hrun hat (by simp) (by simp) rfl (hI.scanOn (.inr hl) hat.running rfl (fun _ => rfl)
      (fun he => by rw [hat.pc] at he; cases he) fun _ q hq => absurd hq (Nat.not_lt_zero _))
  | @reap a p c addr hk copied ha hat hp hl hz =>
    have he : exits s a = [] := by rcases ha with rfl | rfl <;> simp [exits, hat.pc]
    have hr : reaps s a = [entryOf s c] := by simp [reaps, taken_of_reap h ha hat hp hl hz]
    rw [he, hr, List.append_nil]
    exact inv_reap hI hat hz
  | badAddr hat =>
    exact hquiet rfl rfl (hI.leaveScan hat rfl rfl
      (.of rfl rfl) (.inl rfl) hat.running rfl rfl rfl)
  | giveUp hat | enterSleep hat =>
    exact hrun hat (by simp) (by simp) rfl (hI.leaveScan hat rfl rfl
      (.of rfl rfl) (.inl rfl) hat.running rfl rfl rfl)
  | fallAsleep hat =>
    exact hrun hat (by simp) (by simp) rfl (hI.shift
      (.of rfl (by rw [hat.running]; rfl))
      (.inl rfl) (by rw [hat.pc]; rfl) rfl (fun _ => rfl) rfl rfl)
  | @kill p pid q hat hp hl =>
    exact hrun hat (by simp) (by simp) rfl ((inv_killAt hI q).ret 0 (hat.killAt q) rfl)
  | @wakeUp p pc hr _ hpc =>
    refine hquiet rfl rfl ?_
    have hsame : stage .running = stage (s.proc p).state := by rw [hr]; rfl
    rcases hpc with ⟨addr, hpc, rfl⟩ | ⟨hpc, rfl⟩ <;>
      exact hI.shift (.of rfl hsame) (.inl rfl) (by rw [hpc]; rfl) rfl (fun _ => rfl) rfl rfl
  | @sched p hr _ hna hnb =>
    have hal := hI.allows p
    refine hquiet rfl rfl (hI.awaken rfl
      (.of rfl (by rw [hr]; rfl)) ?_)
    cases hpc : (s.proc p).pc <;> rw [hpc] at hal <;> simp_all [PC.allows]
  | @yield p hr _ hw =>
    have hal := hI.allows p
    have hh : (s.proc p).pc.holds = false := by
      by_contra hc
      exact hw ((hI.lock p).mpr (by simpa using hc))
    refine hquiet rfl rfl (hI.awaken rfl
      (.of rfl (by rw [hr]; rfl)) ?_)
    cases hpc : (s.proc p).pc <;> rw [hpc] at hal hh <;> simp_all [PC.allows, PC.holds]
  | wake _ => exact hquiet rfl rfl (inv_rouse hI _ _)
  | @fault p _ _ =>
    exact hquiet rfl rfl (hI.awaken rfl (.of rfl rfl) (hI.allows p))

end

/-- The invariant along a run, with the logs read off its history. -/
theorem inv_history {h : List (Sys N × Act N)} {s : Sys N} (r : Run Init step h s) :
    Inv (exitLog h) (reapLog h) s := by
  induction r with
  | init hi => exact inv_init hi
  | step _ hst ih => simpa [exitLog, reapLog] using inv_step ih hst

/-! ## What a step does to one slot -/

/-- The step is that of a `kill` of `q`'s pid, arrived at the slot `q`. -/
def Kills (s : Sys N) : Act N → Fin N → Prop
  | .run p, q => At s p (.killScan (s.proc q).pid q)
  | _, _ => False

instance decKills (s : Sys N) (a : Act N) (q : Fin N) : Decidable (Kills s a q) := match a with
  | .run p => decidable_of_iff ((s.proc p).state = .running ∧
      (s.proc p).pc = .killScan (s.proc q).pid q) ⟨fun h => ⟨h.1, h.2⟩, fun h => ⟨h.running, h.pc⟩⟩
  | .call _ _ | .alloc _ _ | .copyout _ _ | .sched _ | .yield _ | .wake _ | .fault _ => .isFalse id

/-- Going to sleep, or asleep. -/
def PC.dozing : PC N → Bool
  | .entering _ | .asleep _ | .blocked => true
  | _ => false

/-- The process goes on. -/
structure Moves (x y : Proc N) : Prop where
  state : y.state = x.state
  chan : y.chan = x.chan
  killed : y.killed = x.killed
  xstate : y.xstate = x.xstate
  pid : y.pid = x.pid
  locked : y.locked = x.locked
  uid : y.uid = x.uid
  pc : y.pc = x.pc ∨ y.pc.dozing = false

/-- What a step leaves in slot `q`, up to a move. -/
inductive Slot (s : Sys N) (a : Act N) (q : Fin N) (x : Proc N) : Proc N → Prop
  | same : Slot s a q x x
  | adopt {r} : Slot s a q x { x with parent := some r }
  | live {st} (h : stage x.state = .alive ∨ x.state = .used) (h' : stage st = .alive) :
      Slot s a q x { x with state := st }
  | enter {addr} : Slot s a q x { x with locked := true, pc := .entering addr }
  | sleep {addr} (h : x.state = .running) : Slot s a q x
      { x with chan := some (.proc q), state := .sleeping, locked := false, pc := .asleep addr }
  | block {c} (h : x.state = .running) :
      Slot s a q x { x with chan := some (.other c), state := .sleeping, pc := .blocked }
  | wakeUp {pc} (h : x.state = .runnable) (h' : pc.dozing = false) :
      Slot s a q x { x with state := .running, chan := none, pc := pc }
  | hit (h : Kills s a q ∨ a = .fault q ∧ x.state = .running) : Slot s a q x { x with
      killed := true, state := if x.state = .sleeping then .runnable else x.state }
  | born {p} (h : a = .alloc p true) (hat : At s p (.forkScan q)) (hu : x.state = .unused) :
      Slot s a q x { x with
        pid := s.nextpid, state := .used, pc := .user, a0 := 0,
        uid := s.nextuid, creator := some (s.proc p).uid }
  | free (h : x.state = .unused ∨ ∃ p, taken s a = some (p, q) ∧ x.parent = some p) :
      Slot s a q x x.free
  | zombify {st} (h : x.state = .running) :
      Slot s a q x { x with xstate := st, state := .zombie, locked := true, pc := .exitSched }
  | exitSched : Slot s a q x { x with locked := false, pc := .dead }

section
variable {E R : List Entry} {s t u : Sys N} {a : Act N} {c p q : Fin N} {x y z : Proc N}

theorem Moves.refl (x : Proc N) : Moves x x := ⟨rfl, rfl, rfl, rfl, rfl, rfl, rfl, .inl rfl⟩

theorem moves_setProc (h : Moves (u.proc p) x) (q : Fin N) :
    Moves (u.proc q) ((u.setProc p x).proc q) := by
  by_cases hq : q = p
  · subst hq; rwa [setProc_self]
  · rw [setProc_ne _ _ hq]; exact .refl _

theorem moves_goto {pc : PC N} (h : pc.dozing = false) (u : Sys N) (p q : Fin N) :
    Moves (u.proc q) ((u.goto p pc).proc q) :=
  moves_setProc (by exact ⟨rfl, rfl, rfl, rfl, rfl, rfl, rfl, .inr h⟩) q

theorem moves_ret (u : Sys N) (p : Fin N) (r : Int32) (q : Fin N) :
    Moves (u.proc q) ((u.ret p r).proc q) :=
  moves_setProc (by exact ⟨rfl, rfl, rfl, rfl, rfl, rfl, rfl, .inr rfl⟩) q

theorem slot_setProc (hu : u.proc = s.proc) (h : Slot s a p (s.proc p) x) (q : Fin N) :
    Slot s a q (s.proc q) ((u.setProc p x).proc q) := by
  by_cases hq : q = p
  · subst hq; rwa [setProc_self]
  · rw [setProc_ne _ _ hq, hu]; exact .same

theorem slot_rouse (ch : Chan N) (q c : Fin N) : Slot s a c (s.proc c) ((rouse s ch q).proc c) := by
  unfold rouse
  split
  · next hs => exact slot_setProc rfl (.live (.inl (by rw [hs.1]; rfl)) rfl) c
  · exact .same

theorem slot_wakeupAt {ch : Option (Chan N)} (hw : wakeupAt s p ch q = some t) (c : Fin N) :
    Slot s a c (s.proc c) (t.proc c) := by
  rcases wakeupAt_eq hw with rfl | ⟨ch', -, rfl⟩
  · exact .same
  · exact slot_rouse ch' q c

/-- A step changes one slot, and then its process moves. -/
theorem slot_of_step (hI : Inv E R s) (h : step s a = some t) (c : Fin N) :
    ∃ z, Slot s a c (s.proc c) z ∧ Moves z (t.proc c) := by
  have hone : (∀ c, Slot s a c (s.proc c) (t.proc c)) → ∃ z, Slot s a c (s.proc c) z ∧
      Moves z (t.proc c) := fun h => ⟨_, h c, .refl _⟩
  have hmove : (∀ c, Moves (s.proc c) (t.proc c)) → ∃ z, Slot s a c (s.proc c) z ∧
      Moves z (t.proc c) := fun h => ⟨_, .same, h c⟩
  cases next_of_step h with
  | walk _ _ w => exact hmove (moves_goto (by cases w <;> rfl) s _)
  | block hat => exact hone (slot_setProc rfl (.block hat.running))
  | noSlot _ _ | nobody _ _ => exact hmove (moves_ret s _ _)
  | @alloc p np ok hat hu _ =>
    cases ok with
    | true => exact ⟨_, slot_setProc rfl (.born rfl hat hu) c, moves_goto rfl _ _ c⟩
    | false => exact ⟨_, slot_setProc rfl (.free (.inl hu)) c, moves_ret _ _ _ c⟩
  | setParent _ _ | adopt _ _ _ => exact ⟨_, slot_setProc rfl .adopt c, moves_goto rfl _ _ c⟩
  | @launch p np hat _ =>
    have hu := (hI.born p np (by rw [hat.pc]; rfl)).1
    exact ⟨_, slot_setProc rfl (.live (.inr hu) rfl) c, moves_ret _ _ _ c⟩
  | exitLock _ _ | waitLock _ _ => exact hmove (moves_goto rfl { s with waitLock := some _ } _)
  | wakeInit _ _ hw | wakeParent _ _ hw => exact ⟨_, slot_wakeupAt hw c, moves_goto rfl _ _ c⟩
  | zombify hat => exact hone (slot_setProc rfl (.zombify hat.running))
  | exitSched _ => exact hone (slot_setProc rfl .exitSched)
  | @reap a p d addr hk copied ha hat hp hl hz =>
    have hpd : p ≠ d := by rintro rfl; rw [hat.running] at hz; cases hz
    refine ⟨_, slot_setProc rfl
      (.free (.inr ⟨p, taken_of_reap h ha hat hp hl hz, hp⟩)) c, moves_setProc ?_ c⟩
    rw [setProc_ne _ _ hpd]
    exact ⟨rfl, rfl, rfl, rfl, rfl, rfl, rfl, .inr rfl⟩
  | badAddr _ | giveUp _ => exact hmove (moves_ret { s with waitLock := none } _ _)
  | enterSleep _ => exact hone (slot_setProc rfl .enter)
  | fallAsleep hat => exact hone (slot_setProc rfl (.sleep hat.running))
  | @kill p pid q hat hp _ =>
    have hk : Kills s (.run p) q := (hp ▸ hat : At s p (.killScan (s.proc q).pid q))
    exact ⟨_, slot_setProc rfl (.hit (.inl hk)) c, moves_ret _ _ _ c⟩
  | wakeUp hr _ hpc =>
    exact hone (slot_setProc rfl (.wakeUp hr (by rcases hpc with ⟨_, -, rfl⟩ | ⟨-, rfl⟩ <;> rfl)))
  | sched hr _ _ _ | yield hr _ _ => exact hone (slot_setProc rfl (.live (.inl (by rw [hr]; rfl)) rfl))
  | wake _ => exact hone (slot_rouse _ _)
  | @fault p hat _ =>
    have := Slot.hit (s := s) (q := p) (.inr ⟨rfl, hat.running⟩)
    rw [if_neg (by simp [hat.running])] at this
    exact hone (slot_setProc rfl this)

/-! ## A ZOMBIE slot stays as it is until it is taken -/

/-- `y` is the ZOMBIE `x`, as its parent will find it. -/
structure Rests (x y : Proc N) : Prop where
  state : y.state = .zombie
  uid : y.uid = x.uid
  pid : y.pid = x.pid
  xstate : y.xstate = x.xstate

/-- In one step a ZOMBIE is taken by its parent's `wait` or left alone. -/
theorem keeps_step (hI : Inv E R s) (h : step s a = some t) (hz : (s.proc c).state = .zombie) :
    (∃ p, taken s a = some (p, c) ∧ (s.proc c).parent = some p) ∨ Rests (s.proc c) (t.proc c) := by
  obtain ⟨z, hslot, hm⟩ := slot_of_step hI h c
  have hrest : z.state = .zombie → z.uid = (s.proc c).uid → z.pid = (s.proc c).pid →
      z.xstate = (s.proc c).xstate → Rests (s.proc c) (t.proc c) := fun h1 h2 h3 h4 =>
    ⟨hm.state.trans h1, hm.uid.trans h2, hm.pid.trans h3, hm.xstate.trans h4⟩
  cases hslot with
  | same | adopt | enter | exitSched => exact .inr (hrest hz rfl rfl rfl)
  | hit _ => exact .inr (hrest (by simp [hz]) rfl rfl rfl)
  | live h _ => simp [hz, stage] at h
  | sleep h | block h | wakeUp h _ | zombify h | born _ _ h => rw [hz] at h; cases h
  | free h => exact .inl (h.resolve_left (by simp [hz]))

/-- What a `wait` that takes `c` has found, and what it returns. -/
theorem taken_step (hI : Inv E R s) (h : step s a = some t) (htk : taken s a = some (p, c)) :
    (s.proc c).parent = some p ∧ (s.proc c).state = .zombie ∧ (t.proc p).a0 = (s.proc c).pid ∧
      ((t.proc p).status = some (s.proc c).xstate ∨ ∃ j hk, (s.proc p).pc = .waitScan 0 j hk) := by
  cases a with
  | run q =>
    simp only [taken] at htk
    split at htk
    · next addr j hk hpc =>
      split_ifs at htk with hj hc
      obtain ⟨hpar, hl, hz, ha⟩ := hc
      cases htk
      have hrun : (s.proc p).state = .running := by have := hI.allows p; rwa [hpc] at this
      simp only [step, hrun, true_or, if_true, run, hpc, hj, dif_pos, scanAt, hpar, hl, hz,
        ha, Bool.false_eq_true, if_false, Option.some.injEq] at h
      subst h
      exact ⟨hpar, hz, by simp [reap, setProc_self], .inr ⟨j, hk, by rw [hpc, ha]⟩⟩
    · cases htk
  | copyout q ok =>
    cases ok with
    | false => cases htk
    | true =>
      simp only [taken] at htk
      simp only [step, copyout] at h
      split at htk
      · next addr j hk hpc =>
        split_ifs at htk with hj
        cases htk
        simp only [hpc, hj, dif_pos] at h
        split_ifs at h with hr hc
        cases h
        exact ⟨hc.1, hc.2.2.1, by simp [reap, setProc_self], .inl (by simp [reap, setProc_self])⟩
      · cases htk
  | _ => cases htk

end

/-! ## Exactly once -/

/-- In every run: a live or ZOMBIE process has a live parent, its creator or,
once the creator is gone, init; no process exits twice and none is returned by
two `wait`s; what a `wait` returns is a ZOMBIE child of the caller, with the pid
and status of its own exit; a ZOMBIE slot is left alone until it is taken; and a
`wait` that gives up for lack of children has none. -/
theorem exit_delivered_once {h : List (Sys N × Act N)} {s : Sys N} (r : Run Init step h s) :
    (∀ p, p ≠ s.initproc → ((s.proc p).state = .runnable ∨ (s.proc p).state = .running ∨
        (s.proc p).state = .sleeping ∨ (s.proc p).state = .zombie) →
      ∃ q, (s.proc p).parent = some q ∧ (s.proc q).state ≠ .unused ∧ (s.proc q).state ≠ .zombie ∧
        Heir (exitLog h) s p q ∧
        ∀ u ∈ (exitLog h).map Prod.fst, (s.proc p).creator = some u → q = s.initproc) ∧
    ((exitLog h).map Prod.fst).Nodup ∧
    ((reapLog h).map Prod.fst).Nodup ∧ (∀ e ∈ reapLog h, e ∈ exitLog h) ∧
    (∀ a t, step s a = some t → (∀ p c, taken s a = some (p, c) →
        (s.proc c).parent = some p ∧ (s.proc c).state = .zombie ∧ entryOf s c ∈ exitLog h ∧
        (t.proc p).a0 = (s.proc c).pid ∧
        ((t.proc p).status = some (s.proc c).xstate ∨ ∃ j hk, (s.proc p).pc = .waitScan 0 j hk)) ∧
      ∀ c, (s.proc c).state = .zombie →
        (∃ p, taken s a = some (p, c)) ∨ Rests (s.proc c) (t.proc c)) ∧
    ∀ p addr, (s.proc p).pc = .waitTest addr false → ∀ q, (s.proc q).parent ≠ some p := by
  have hI := inv_history r
  have hlive : ∀ q, (s.proc q).pc.gone = false →
      (s.proc q).state ≠ .unused ∧ (s.proc q).state ≠ .zombie := by
    intro q hg
    refine ⟨fun hu => ?_, fun hz => ?_⟩
    · have : (s.proc q).pc = .dead := PC.dead_of_unused (by rw [← hu]; exact hI.allows q)
      rw [this] at hg; cases hg
    · have : (s.proc q).pc.gone = true := PC.gone_of_zombie (by rw [← hz]; exact hI.allows q)
      rw [this] at hg; cases hg
  refine ⟨fun p hp hst => ?_, hI.exitOnce, hI.once, fun e he => (hI.reaped e he).1,
    fun a t ht => ⟨fun p c htk => ?_, fun c hz => ?_⟩, fun p addr hpc q => ?_⟩
  · have hor : (s.proc p).parent ≠ none := by
      refine hI.orphan p hp ?_
      rcases hst with h | h | h | h <;> simp [h, stage]
    obtain ⟨q, hq⟩ := Option.ne_none_iff_exists'.mp hor
    obtain ⟨hg, hheir⟩ := hI.parentOf p q hq
    obtain ⟨hu, hz⟩ := hlive q hg
    refine ⟨q, hq, hu, hz, hheir, fun u hue hc => ?_⟩
    rcases hheir with hcr | ⟨hi, -⟩
    · -- the creator is alive, so it is not among those that exited
      obtain ⟨e, he, rfl⟩ := List.mem_map.mp hue
      rw [hc] at hcr
      exact absurd ((hI.exited e he).2 q hu (Option.some.inj hcr).symm) hz
    · exact hi
  · obtain ⟨h1, h2, h3, h4⟩ := taken_step hI ht htk
    exact ⟨h1, h2, hI.zombie c h2, h3, h4⟩
  · rcases keeps_step hI ht hz with ⟨p, hp, -⟩ | hr
    · exact .inl ⟨p, hp⟩
    · exact .inr hr
  · have hs := hI.scanned p
    rw [hpc] at hs
    exact hs rfl q q.isLt

/-! ## Two slots: init forks, the child exits with 7, init waits -/

/-- The table after `userinit`. -/
def booted : Sys 2 where
  proc := fun p =>
    if p = 0 then ⟨.runnable, none, false, 0, 1, none, false, .user, 0, none, 0, none⟩
    else ⟨.unused, none, false, 0, 0, none, false, .dead, 0, none, 0, none⟩
  waitLock := none
  nextpid := 2
  initproc := 0
  nextuid := 1

theorem booted_init : Init booted where
  waitLock := rfl
  nextpid := rfl
  nextuid := rfl
  runnable := rfl
  initPc := rfl
  initPid := rfl
  initUid := rfl
  unused := by decide
  pid := by decide
  pc := by decide
  parent := by decide
  locked := by decide
  killed := by decide
  chan := by decide

def forkExitWait : List (Act 2) := [.sched 0, .call 0 .fork, .run 0, .alloc 0 true, .run 0, .run 0,
    .sched 1, .call 1 (.exit 7), .run 1, .run 1, .run 1, .run 1, .run 1, .run 1, .run 1, .run 1,
    .run 1, .call 0 (.wait 0), .run 0, .run 0, .run 0]

theorem exit_delivered_once_child : ∃ h s, Run Init step h s ∧
    exitLog h = [(1, 2, 7)] ∧ reapLog h = [(1, 2, 7)] ∧ (s.proc (0 : Fin 2)).a0 = 2 ∧
    (s.proc 1).state = .unused ∧ ((reapLog h).map Prod.fst).Nodup ∧
    ∀ e ∈ reapLog h, e ∈ exitLog h := by
  have hsome : (exec step booted forkExitWait).isSome = true := by decide
  obtain ⟨s, hs⟩ := Option.isSome_iff_exists.mp hsome
  have hview : ((exec step booted forkExitWait).map fun s => ((s.proc 0).a0, (s.proc 1).state))
      = some (2, .unused) := by decide
  simp only [hs, Option.map_some, Option.some.injEq, Prod.mk.injEq] at hview
  have r := exec_run forkExitWait (Run.init booted_init) hs
  obtain ⟨-, -, honce, hsub, -⟩ := exit_delivered_once r
  exact ⟨_, s, r, by decide, by decide, hview.1, hview.2, honce, hsub⟩

end Xv6.Procs
