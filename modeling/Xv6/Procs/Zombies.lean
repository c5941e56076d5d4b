/-
# `Xv6.Procs.Zombies` — no parent sleeps past a zombie child

`wait` looks for a ZOMBIE child and goes to sleep when it finds none; `exit`
wakes the parent BEFORE it becomes a ZOMBIE, and `reparent` hands children that
may be dead already over to init and wakes it AFTERWARDS.  What makes both
orders safe is `wait_lock`, which a waiter keeps until it holds its own
`p->lock`, and which an exiting process keeps until it is a ZOMBIE.

A process is deaf when it has decided to sleep in `wait`, whether or not it has
gone to sleep yet.  The invariant says that a process with a ZOMBIE child is
deaf only while the `wakeup(initproc)` meant for it is under way
(`Awaited`), and what the holder of `wait_lock` knows (`Knows`): the scan of
`wait` which slots hold no ZOMBIE child, the `wakeup` of `exit` that the parent,
once passed, is not deaf.
-/
import Xv6.Procs.Pids

namespace Xv6.Procs

open Machine

variable {N : Nat} {p : Fin N} {x : Proc N} {h : List (Sys N × Act N)} {s : Sys N} {pc : PC N}

/-! ## Channels of sleeping processes -/

/-- What goes with the program points around sleeping, in the slot `p`. -/
def Tidy (p : Fin N) (x : Proc N) : Prop :=
  match x.pc with
  | .entering _ => x.locked = true
  | .asleep _ => x.chan = some (.proc p)
  | .blocked => ∃ c, x.chan = some (.other c)
  | _ => True

def AllTidy (s : Sys N) : Prop := ∀ q, Tidy q (s.proc q)

theorem tidy_of_awake (h : x.pc.dozing = false) : Tidy p x := by
  unfold Tidy
  split <;> simp_all [PC.dozing]

theorem tidy_run (r : Run Init step h s) : AllTidy s := by
  induction r with
  | @init s hi =>
    intro q
    by_cases hq : q = s.initproc
    · subst hq; simp [Tidy, hi.initPc]
    · simp [Tidy, hi.pc q hq]
  | @step h s t a r hst ih =>
    intro q
    obtain ⟨z, hz, hm⟩ := slot_of_step (inv_history r) hst q
    have htidy : Tidy q z := by
      have hq := ih q
      cases hz with
      | same | adopt | live _ _ | hit _ => exact hq
      | enter | sleep _ => rfl
      | block _ => exact ⟨_, rfl⟩
      | wakeUp _ hpc => exact tidy_of_awake hpc
      | born _ _ _ | free _ | zombify _ | exitSched => trivial
    rcases hm.pc with hpc | hpc
    · rwa [Tidy, hpc, hm.locked, hm.chan]
    · exact tidy_of_awake hpc

/-! ## Deafness -/

/-- Decided to sleep in `wait`, and not woken since. -/
def Proc.deaf (x : Proc N) : Prop :=
  match x.pc with
  | .entering _ => True
  | .asleep _ => x.state = .sleeping
  | _ => False

/-- The slot's process is a ZOMBIE child of `p`. -/
def Proc.deadChild (x : Proc N) (p : Fin N) : Prop := x.parent = some p ∧ x.state = .zombie

/-- What the holder of `wait_lock` knows. -/
def Knows (s : Sys N) (p : Fin N) : PC N → Prop
  | .waitScan _ j _ => ∀ c : Fin N, (c : Nat) < j → ¬ (s.proc c).deadChild p
  | .waitTest _ _ | .waitSleep _ => ∀ c, ¬ (s.proc c).deadChild p
  | .wakeParent _ k => ∀ q : Fin N, (q : Nat) < k → q ≠ p →
      (s.proc p).parent = some q → ¬ (s.proc q).deaf
  | .exitZombie _ => ∀ q, q ≠ p → (s.proc p).parent = some q → ¬ (s.proc q).deaf
  | _ => True

/-- A `wakeup(initproc)` that has not yet come to init's slot. -/
def Awaited (s : Sys N) (p : Fin N) : Prop :=
  p = s.initproc ∧ ∃ r st j k, (s.proc r).pc = .wakeInit st j k ∧ k ≤ (p : Nat)

structure Heard (s : Sys N) : Prop where
  child : ∀ p c, (s.proc c).deadChild p → (s.proc p).deaf → Awaited s p
  knows : ∀ p, Knows s p (s.proc p).pc

theorem knows_of_not_holds (h : pc.holds = false) : Knows s p pc := by
  cases pc <;> trivial

/-- The new slot is a ZOMBIE child, or deaf, only if the old one was. -/
structure Milder (x y : Proc N) : Prop where
  parent : ∀ p, y.parent = some p → x.parent = some p
  zombie : y.state = .zombie → x.state = .zombie
  deaf : y.deaf → x.deaf

theorem Milder.refl (x : Proc N) : Milder x x := ⟨fun _ => id, id, id⟩

theorem Milder.deadChild {y : Proc N} (h : Milder x y) (hd : y.deadChild p) :
    x.deadChild p := ⟨h.parent p hd.1, h.zombie hd.2⟩

theorem Knows.mono {t : Sys N} (h : ∀ q, Milder (s.proc q) (t.proc q))
    (hk : Knows s p pc) : Knows t p pc := by
  cases pc with
  | waitScan _ j _ => exact fun c hc hd => hk c hc ((h c).deadChild hd)
  | waitTest _ _ | waitSleep _ => exact fun c hd => hk c ((h c).deadChild hd)
  | wakeParent _ k =>
    exact fun q hq hne hp hd => hk q hq hne ((h p).parent q hp) ((h q).deaf hd)
  | exitZombie _ => exact fun q hne hp hd => hk q hne ((h p).parent q hp) ((h q).deaf hd)
  | _ => trivial

/-- Is at a `wakeup(initproc)`. -/
def PC.waking : PC N → Bool
  | .wakeInit _ _ _ => true
  | _ => false

section
variable {E R : List Entry} {s t : Sys N} {q : Fin N} {st : Int32} {j k : Nat} {addr : UInt64}
  {hk : Bool}

theorem milder_setProc (hm : Milder (s.proc p) x) (q : Fin N) :
    Milder (s.proc q) ((s.setProc p x).proc q) := by
  by_cases hq : q = p
  · subst hq; rwa [setProc_self]
  · rw [setProc_ne _ _ hq]; exact .refl _

section
variable (hH : Heard s)
include hH

/-- One slot changes, to a milder value, and its process keeps its program point
or moves to one at which it knows enough. -/
theorem Heard.setProc (l : Option (Fin N)) (hm : Milder (s.proc p) x)
    (hpc : x.pc = (s.proc p).pc ∨ ((s.proc p).pc.waking = false ∧ Knows s p x.pc)) :
    Heard ({ s with waitLock := l }.setProc p x) := by
  have hmq := milder_setProc hm
  have hwait : ∀ q, Awaited s q → Awaited ({ s with waitLock := l }.setProc p x) q := by
    rintro q ⟨rfl, r, st, j, k, hr, hk⟩
    refine ⟨rfl, r, st, j, k, ?_, hk⟩
    by_cases hrp : r = p
    · subst hrp
      rcases hpc with hpc | ⟨hw, -⟩
      · rw [setProc_self, hpc, hr]
      · rw [hr] at hw; cases hw
    · rwa [setProc_ne _ _ hrp]
  refine ⟨fun q c hc hd => hwait q (hH.child q c ((hmq c).deadChild hc) ((hmq q).deaf hd)),
    fun q => Knows.mono hmq ?_⟩
  by_cases hq : q = p
  · subst hq
    rw [setProc_self]
    rcases hpc with hpc | ⟨-, hk⟩
    · rw [hpc]; exact hH.knows q
    · exact hk
  · rw [setProc_ne _ _ hq]; exact hH.knows q

/-- A process moves, deaf to nothing. -/
theorem Heard.goto (l : Option (Fin N)) (hw : (s.proc p).pc.waking = false) (hk : Knows s p pc)
    (hd : ¬ ({ s.proc p with pc := pc } : Proc N).deaf) :
    Heard ({ s with waitLock := l }.goto p pc) :=
  hH.setProc l ⟨fun _ => id, id, fun h => absurd h hd⟩ (.inr ⟨hw, hk⟩)

/-- A process changes state where it is, and does not fall asleep or die. -/
theorem Heard.setState (hpc : x.pc = (s.proc q).pc)
    (hp : x.parent = (s.proc q).parent) (hs : x.state = .sleeping → (s.proc q).state = .sleeping)
    (hz : x.state = .zombie → (s.proc q).state = .zombie) : Heard (s.setProc q x) := by
  refine hH.setProc s.waitLock ⟨fun p => by rw [hp]; exact id, hz, fun hd => ?_⟩ (.inl hpc)
  unfold Proc.deaf at *
  rw [hpc] at hd
  cases h : (s.proc q).pc with
  | asleep a => rw [h] at hd; exact hs hd
  | entering a => trivial
  | _ => rwa [h] at hd

theorem Heard.rouse (c : Chan N) (q : Fin N) : Heard (rouse s c q) := by
  unfold Procs.rouse
  split
  · exact hH.setState rfl rfl nofun nofun
  · exact hH

theorem Heard.wakeupAt {c : Option (Chan N)} (hw : wakeupAt s p c q = some t) : Heard t := by
  rcases wakeupAt_eq hw with rfl | ⟨c', -, rfl⟩
  · exact hH
  · exact hH.rouse c' q

end

/-- `wakeup(q)` at the slot of `q` itself. -/
theorem wakeupAt_hears (ht : AllTidy s) (hne : q ≠ p)
    (hw : wakeupAt s p (some (.proc q)) q = some t) : ¬ (t.proc q).deaf := by
  unfold Procs.wakeupAt at hw
  rw [if_neg hne] at hw
  split_ifs at hw with hl
  cases hw
  have htq := ht q
  unfold Procs.rouse
  cases hpc : (s.proc q).pc with
  | entering a =>
    simp only [Tidy, hpc] at htq
    exact absurd htq hl
  | asleep a =>
    simp only [Tidy, hpc] at htq
    split
    · rw [setProc_self]; simp [Proc.deaf, hpc]
    · next hs =>
      simp only [Proc.deaf, hpc]
      exact fun hd => hs ⟨hd, htq⟩
  | _ =>
    split
    · rw [setProc_self]; simp [Proc.deaf, hpc]
    · simp [Proc.deaf, hpc]

/-- With `wait_lock` in the hands of `p`, nobody else knows anything, or is at a
`wakeup(initproc)`. -/
theorem not_holds_of_ne (hI : Inv E R s) (hp : (s.proc p).pc.holds = true) (hq : q ≠ p) :
    (s.proc q).pc.holds = false := by
  have hl := (hI.lock p).mpr hp
  by_contra hh
  have := (hI.lock q).mpr (by simpa using hh)
  rw [hl] at this
  exact hq (Option.some.inj this).symm

/-- `fork` makes `q` a child of `p`; `q` is no ZOMBIE and not in `exit`. -/
theorem Heard.setParent (hH : Heard s) (hz : (s.proc q).state ≠ .zombie)
    (hq : (s.proc q).pc = .user) : Heard (s.setProc q { s.proc q with parent := some p }) := by
  have hd : ∀ r, ((s.setProc q { s.proc q with parent := some p }).proc r).deaf = (s.proc r).deaf :=
    setProc_field Proc.deaf s rfl
  have hpc : ∀ r, ((s.setProc q { s.proc q with parent := some p }).proc r).pc = (s.proc r).pc :=
    setProc_field (·.pc) s rfl
  have hc : ∀ r p', ((s.setProc q { s.proc q with parent := some p }).proc r).deadChild p' →
      (s.proc r).deadChild p' := by
    intro r p' hdc
    by_cases hr : r = q
    · subst hr; rw [setProc_self] at hdc; exact absurd hdc.2 hz
    · rwa [setProc_ne _ _ hr] at hdc
  refine ⟨fun r c hdc hdeaf => ?_, fun r => ?_⟩
  · obtain ⟨he, r', st, j, k, hr, hk⟩ := hH.child r c (hc c r hdc) (hd r ▸ hdeaf)
    exact ⟨he, r', st, j, k, (hpc r').trans hr, hk⟩
  · have hk := hH.knows r
    rw [hpc]
    by_cases hr : r = q
    · subst hr; rw [hq]; trivial
    · cases h : (s.proc r).pc with
      | waitScan _ j _ => rw [h] at hk; exact fun c hj hdc => hk c hj (hc c r hdc)
      | waitTest _ _ | waitSleep _ => rw [h] at hk; exact fun c hdc => hk c (hc c r hdc)
      | wakeParent _ k =>
        rw [h] at hk
        intro q' hq' hne hpar
        rw [setProc_ne _ _ hr] at hpar
        rw [hd]; exact hk q' hq' hne hpar
      | exitZombie _ =>
        rw [h] at hk
        intro q' hne hpar
        rw [setProc_ne _ _ hr] at hpar
        rw [hd]; exact hk q' hne hpar
      | _ => trivial

section
variable (hI : Inv E R s)
include hI

section
variable (hH : Heard s)
include hH

/-- While `p` holds `wait_lock` outside `wakeup(initproc)`, no parent of a ZOMBIE is deaf,
and nobody else knows anything. -/
theorem Heard.of_holder (hat : At s p pc) (hhold : pc.holds = true) (hw : pc.waking = false)
    (hpc : ∀ r, r ≠ p → (t.proc r).pc = (s.proc r).pc) (hk : Knows t p (t.proc p).pc)
    (hchild : (∀ r c, (s.proc c).deadChild r → ¬ (s.proc r).deaf) →
      ∀ r c, (t.proc c).deadChild r → (t.proc r).deaf → Awaited t r) : Heard t := by
  have hother : ∀ r, r ≠ p → (s.proc r).pc.holds = false := fun r =>
    not_holds_of_ne hI (by rwa [hat.pc])
  refine ⟨hchild fun r c hdc hdeaf => ?_, fun r => ?_⟩
  · obtain ⟨-, r', st, j, k, hr, -⟩ := hH.child r c hdc hdeaf
    by_cases hrp : r' = p
    · rw [hrp, hat.pc] at hr; rw [hr] at hw; cases hw
    · have := hother r' hrp
      rw [hr] at this; cases this
  · by_cases hrp : r = p
    · subst hrp; exact hk
    · rw [hpc r hrp]; exact knows_of_not_holds (hother r hrp)

/-- `reparent` hands `q`, dead or alive, over to init; the `wakeup` follows. -/
theorem Heard.adopt (hat : At s p (.reparent st j)) :
    Heard ((s.setProc q { s.proc q with parent := some s.initproc }).goto p (.wakeInit st j 0)) := by
  set u := s.setProc q { s.proc q with parent := some s.initproc } with hu
  have hdeaf : ∀ r, (u.proc r).deaf = (s.proc r).deaf := setProc_field Proc.deaf s rfl
  have hpc : ∀ r, (u.proc r).pc = (s.proc r).pc := setProc_field (·.pc) s rfl
  have hself : ((u.goto p (.wakeInit st j 0)).proc p).pc = .wakeInit st j 0 := by
    rw [Sys.goto, setProc_self]
  refine hH.of_holder hI hat rfl rfl (fun r hr => ?_) (by rw [hself]; trivial)
    fun hnone r c hdc hd => ?_
  · rw [Sys.goto, setProc_ne _ _ hr, hpc]
  · by_cases hri : r = s.initproc
    · exact ⟨hri, p, st, j, 0, hself, Nat.zero_le _⟩
    have hrp : r ≠ p := by
      rintro rfl
      simp [Proc.deaf, hself] at hd
    rw [Sys.goto, setProc_ne _ _ hrp, hdeaf] at hd
    -- a ZOMBIE child of anybody else was one before
    refine absurd hd (hnone r c ?_)
    have hdc : (u.proc c).deadChild r := by
      rwa [Sys.goto, setProc_field (fun x : Proc N => x.deadChild r) u (by rfl)] at hdc
    by_cases hcq : c = q
    · subst hcq
      rw [hu, setProc_self] at hdc
      exact absurd (Option.some.inj hdc.1).symm hri
    · rwa [hu, setProc_ne _ _ hcq] at hdc

/-- The last section of `exit`: the parent is not deaf, so the new ZOMBIE will be
seen. -/
theorem Heard.zombify (hat : At s p (.exitZombie st)) : Heard ({ s with waitLock := none }.setProc p
      { s.proc p with xstate := st, state := .zombie, locked := true, pc := .exitSched }) := by
  have hknows := hH.knows p
  rw [hat.pc] at hknows
  refine hH.of_holder hI hat rfl rfl (fun r hr => by rw [setProc_ne _ _ hr])
    (by rw [setProc_self]; trivial) fun hnone r c hdc hd => ?_
  have hrp : r ≠ p := by
    rintro rfl
    rwa [setProc_self] at hd
  rw [setProc_ne _ _ hrp] at hd
  by_cases hcp : c = p
  · subst hcp
    rw [setProc_self] at hdc
    exact absurd hd (hknows r hrp hdc.1)
  · rw [setProc_ne _ _ hcp] at hdc
    exact absurd hd (hnone r c hdc)

/-- `wait` has seen the whole table and goes to sleep. -/
theorem Heard.enterSleep
    (hat : At s p (.waitSleep addr)) : Heard ({ s with waitLock := none }.setProc p
      { s.proc p with locked := true, pc := .entering addr }) := by
  have hknows := hH.knows p
  rw [hat.pc] at hknows
  refine hH.of_holder hI hat rfl rfl (fun r hr => by rw [setProc_ne _ _ hr])
    (by rw [setProc_self]; trivial) fun hnone r c hdc hd => ?_
  have hold : (s.proc c).deadChild r := by
    rwa [setProc_field (fun x : Proc N => x.deadChild r) _ (by rfl)] at hdc
  by_cases hrp : r = p
  · subst hrp; exact absurd hold (hknows c)
  · rw [setProc_ne _ _ hrp] at hd
    exact absurd hd (hnone r c hold)

end

/-- `wakeup(initproc)` moves past one slot. -/
theorem Heard.wakeInit (hT : AllTidy s) (hH : Heard s)
    (hat : At s p (.wakeInit st j k)) (hk : k < N)
    (hw : Procs.wakeupAt s p (some (.proc s.initproc)) ⟨k, hk⟩ = some t) :
    Heard (t.goto p (.wakeInit st j (k + 1))) := by
  obtain ⟨hIt, hp, -, hinit⟩ := inv_wakeupAt hI hw
  have hni : s.initproc ≠ p := (PC.not_leaving_of_init hI (by rw [hat.pc]; rfl)).symm
  have hHt := hH.wakeupAt hw
  have hself : ((t.goto p (.wakeInit st j (k + 1))).proc p).pc = .wakeInit st j (k + 1) := by
    rw [Sys.goto, setProc_self]
  have hm : ∀ q, Milder (t.proc q) ((t.goto p (.wakeInit st j (k + 1))).proc q) := by
    refine milder_setProc ⟨fun _ => id, id, fun h => ?_⟩
    exact absurd h (by simp [Proc.deaf])
  refine ⟨fun r c hdc hdeaf => ?_, fun r => ?_⟩
  · have hdt := (hm r).deaf hdeaf
    obtain ⟨hri, r', st', j', k', hr', hkr⟩ := hHt.child r c ((hm c).deadChild hdc) hdt
    refine ⟨hri, p, st, j, k + 1, hself, ?_⟩
    -- nobody but `p` is at a `wakeup(initproc)`, and init is not at the slot just passed
    have hkk : k ≤ (r : Nat) := by
      by_cases hrp : r' = p
      · rw [hrp, hp, hat.pc] at hr'
        cases hr'; exact hkr
      · have := not_holds_of_ne hIt (by rw [hp, hat.pc]; rfl) hrp
        rw [hr'] at this; cases this
    rcases Nat.lt_or_eq_of_le hkk with hlt | heq
    · exact hlt
    · exfalso
      have hre : (⟨k, hk⟩ : Fin N) = s.initproc := by
        rw [← hinit, ← hri]; exact Fin.ext heq
      rw [hre] at hw
      rw [hri, hinit] at hdt
      exact wakeupAt_hears hT hni hw hdt
  · by_cases hrp : r = p
    · subst hrp; rw [hself]; trivial
    · have := hHt.knows r
      rw [Sys.goto, setProc_ne _ _ hrp]
      exact this.mono hm

/-- `wakeup(p->parent)` moves past one slot. -/
theorem Heard.wakeParent (hT : AllTidy s) (hH : Heard s)
    (hat : At s p (.wakeParent st k)) (hk : k < N)
    (hw : Procs.wakeupAt s p ((s.proc p).parent.map .proc) ⟨k, hk⟩ = some t) :
    Heard (t.goto p (.wakeParent st (k + 1))) := by
  obtain ⟨-, hp, -, -⟩ := inv_wakeupAt hI hw
  have hHt := hH.wakeupAt hw
  have hknows := hHt.knows p
  rw [hp, hat.pc] at hknows
  refine hHt.goto t.waitLock (by rw [hp, hat.pc]; rfl) (fun q hq hne hpar => ?_) (by simp [Proc.deaf])
  rcases Nat.lt_succ_iff_lt_or_eq.mp hq with hlt | heq
  · exact hknows q hlt hne hpar
  · obtain rfl : q = ⟨k, hk⟩ := Fin.ext heq
    rw [hp] at hpar
    rw [hpar] at hw
    exact wakeupAt_hears hT hne hw

end

theorem Heard.walk (hH : Heard s) {pc' : PC N} (hat : At s p pc) (w : Walk s p pc pc') :
    Heard (s.goto p pc') := by
  have hknows := hH.knows p
  rw [hat.pc] at hknows
  -- one slot more, or the end of the table
  have hscan : ∀ {addr : UInt64} {j : Nat} {hk hk' : Bool} (hj : j < N), pc = .waitScan addr j hk →
      ¬ (s.proc ⟨j, hj⟩).deadChild p → Knows s p (.waitScan addr (j + 1) hk') := by
    intro addr j hk hk' hj hpc hno c hc
    rw [hpc] at hknows
    rcases Nat.lt_succ_iff_lt_or_eq.mp hc with hlt | heq
    · exact hknows c hlt
    · obtain rfl : c = ⟨j, hj⟩ := Fin.ext heq
      exact hno
  cases w with
  | @wakeInit st j k hk =>
    -- the `wakeup` has passed every slot
    have hm : ∀ q, Milder (s.proc q) ((s.goto p (.reparent st (j + 1))).proc q) :=
      milder_setProc ⟨fun _ => id, id, fun h => absurd h (by simp [Proc.deaf])⟩
    refine ⟨fun r c hdc hdeaf => ?_, fun r => ?_⟩
    · obtain ⟨hri, r', st', j', k', hr', hkr⟩ :=
        hH.child r c ((hm c).deadChild hdc) ((hm r).deaf hdeaf)
      have hrp : r' ≠ p := by
        rintro rfl
        rw [hat.pc] at hr'
        cases hr'
        exact hk (Nat.lt_of_le_of_lt hkr r.isLt)
      refine ⟨hri, r', st', j', k', ?_, hkr⟩
      rwa [Sys.goto, setProc_ne _ _ hrp]
    · by_cases hrp : r = p
      · subst hrp; rw [Sys.goto, setProc_self]; trivial
      · have := hH.knows r
        rw [Sys.goto, setProc_ne _ _ hrp]
        exact this.mono hm
  | notMine hj hp => exact hH.goto s.waitLock (by rw [hat.pc]; rfl) (hscan hj rfl fun h => hp h.1) id
  | alive hj _ hz => exact hH.goto s.waitLock (by rw [hat.pc]; rfl) (hscan hj rfl fun h => hz h.2) id
  | scanned hj =>
    exact hH.goto s.waitLock (by rw [hat.pc]; rfl)
      (fun c => hknows c (Nat.lt_of_lt_of_le c.isLt (Nat.not_lt.mp hj))) id
  | tested => exact hH.goto s.waitLock (by rw [hat.pc]; rfl) hknows id
  | reparented hj =>
    exact hH.goto s.waitLock (by rw [hat.pc]; rfl) (fun q hq => absurd hq (Nat.not_lt_zero _)) id
  | wakeParent hk =>
    exact hH.goto s.waitLock (by rw [hat.pc]; rfl)
      (fun q => hknows q (Nat.lt_of_lt_of_le q.isLt (Nat.not_lt.mp hk))) id
  | _ => exact hH.goto s.waitLock (by rw [hat.pc]; rfl) trivial id

theorem heard_alloc (hI : Inv E R s) (hH : Heard s) {np : Fin N} {ok : Bool}
    (hat : At s p (.forkScan np)) (hu : (s.proc np).state = .unused) : Heard (allocAt s p np ok) := by
  have hne : p ≠ np := by rintro rfl; rw [hat.running] at hu; cases hu
  have hdead : (s.proc np).pc = .dead := PC.dead_of_unused (by rw [← hu]; exact hI.allows np)
  have hw : (s.proc np).pc.waking = false := by rw [hdead]; rfl
  have hany : ∀ (t : Sys N), t.proc = s.proc → t.initproc = s.initproc → Heard t := by
    rintro ⟨f, l, n, i, u⟩ rfl rfl
    exact ⟨hH.child, hH.knows⟩
  cases ok with
  | true =>
    have h1 := (hany { s with nextpid := s.nextpid + 1, nextuid := s.nextuid + 1 } rfl rfl).setProc
      s.waitLock (x := { s.proc np with
        pid := s.nextpid, state := .used, pc := .user, a0 := 0,
        uid := s.nextuid, creator := some (s.proc p).uid })
      ⟨fun _ => id, nofun, fun h => h.elim⟩ (.inr ⟨hw, trivial⟩)
    refine h1.goto s.waitLock ?_ trivial id
    rw [setProc_ne _ _ hne, hat.pc]; rfl
  | false =>
    have h1 := (hany { s with nextpid := s.nextpid + 1 } rfl rfl).setProc
      s.waitLock (x := (s.proc np).free)
      ⟨fun _ h => (by cases h), nofun, fun h => h.elim⟩ (.inr ⟨hw, trivial⟩)
    refine h1.setProc s.waitLock ⟨fun _ => id, id, fun h => h.elim⟩ (.inr ⟨?_, trivial⟩)
    rw [setProc_ne _ _ hne, hat.pc]; rfl

theorem heard_reap (hI : Inv E R s) (hH : Heard s) {c : Fin N}
    {copied : Bool} (hat : At s p (.waitScan addr j hk)) (hz : (s.proc c).state = .zombie) :
    Heard (reap s p c copied) := by
  have hne : p ≠ c := by rintro rfl; rw [hat.running] at hz; cases hz
  have hw : (s.proc c).pc.waking = false := by
    have := PC.gone_of_zombie (by rw [← hz]; exact hI.allows c)
    cases hpc : (s.proc c).pc <;> rw [hpc] at this <;> first | rfl | cases this
  have h1 := hH.setProc none (x := (s.proc c).free)
    ⟨fun _ h => (by cases h), nofun, fun h => h.elim⟩ (.inr ⟨hw, trivial⟩)
  have hp : (({ s with waitLock := none }.setProc c (s.proc c).free).proc p) = s.proc p :=
    setProc_ne _ _ hne
  refine h1.setProc none ?_ (.inr ⟨by rw [hp, hat.pc]; rfl, trivial⟩)
  rw [hp]
  exact ⟨fun _ => id, id, fun h => h.elim⟩

/-- One step. -/
theorem Heard.step {a : Act N} (hI : Inv E R s) (hT : AllTidy s) (hH : Heard s) (hn : Next s a t) :
    Heard t := by
  cases hn with
  | walk _ hat w => exact hH.walk hat w
  | block hat =>
    exact hH.setProc s.waitLock ⟨fun _ => id, nofun, fun h => h.elim⟩
      (.inr ⟨by rw [hat.pc]; rfl, trivial⟩)
  | noSlot hat _ | nobody hat _ =>
    exact hH.setProc s.waitLock ⟨fun _ => id, id, fun h => h.elim⟩
      (.inr ⟨by rw [hat.pc]; rfl, trivial⟩)
  | alloc hat hu _ => exact heard_alloc hI hH hat hu
  | @setParent p np hat _ =>
    have hborn := hI.born p np (by rw [hat.pc]; rfl)
    have hne : p ≠ np := by rintro rfl; rw [hat.running] at hborn; cases hborn.1
    have h1 := hH.setParent (p := p) (by rw [hborn.1]; simp)
      (PC.user_of_used (by rw [← hborn.1]; exact hI.allows np))
    refine h1.goto s.waitLock ?_ trivial id
    rw [setProc_ne _ _ hne, hat.pc]; rfl
  | @launch p np hat _ =>
    have hborn := hI.born p np (by rw [hat.pc]; rfl)
    have hne : p ≠ np := by rintro rfl; rw [hat.running] at hborn; cases hborn.1
    have huser := PC.user_of_used (by rw [← hborn.1]; exact hI.allows np)
    have h1 := hH.setProc s.waitLock (x := { s.proc np with state := .runnable })
      ⟨fun _ => id, nofun, fun h => by simp [Proc.deaf, huser] at h⟩ (.inl rfl)
    refine h1.setProc s.waitLock ⟨fun _ => id, id, fun h => h.elim⟩ (.inr ⟨?_, trivial⟩)
    rw [setProc_ne _ _ hne, hat.pc]; rfl
  | exitLock hat _ => exact hH.goto (some _) (by rw [hat.pc]; rfl) trivial id
  | adopt hat _ _ => exact hH.adopt hI hat
  | wakeInit hat hk hw => exact hH.wakeInit hI hT hat hk hw
  | wakeParent hat hk hw => exact hH.wakeParent hI hT hat hk hw
  | zombify hat => exact hH.zombify hI hat
  | exitSched hpc =>
    exact hH.setProc s.waitLock ⟨fun _ => id, id, fun h => h.elim⟩
      (.inr ⟨by rw [hpc]; rfl, trivial⟩)
  | waitLock hat _ =>
    exact hH.goto (some _) (by rw [hat.pc]; rfl) (fun c hc => absurd hc (Nat.not_lt_zero _)) id
  | reap _ hat _ _ hz => exact heard_reap hI hH hat hz
  | badAddr hat | giveUp hat =>
    exact hH.setProc none ⟨fun _ => id, id, fun h => h.elim⟩ (.inr ⟨by rw [hat.pc]; rfl, trivial⟩)
  | enterSleep hat => exact hH.enterSleep hI hat
  | fallAsleep hat =>
    exact hH.setProc s.waitLock
      ⟨fun _ => id, nofun, fun _ => by rw [Proc.deaf, hat.pc]; trivial⟩
      (.inr ⟨by rw [hat.pc]; rfl, trivial⟩)
  | @kill p pid q hat _ _ =>
    have h1 : Heard (killAt s q) := by
      refine hH.setState rfl rfl (fun h => ?_) (fun h => ?_)
      all_goals
        split_ifs at h
        exact h
    have hpc : ((killAt s q).proc p).pc = .killScan pid q := by
      rw [← hat.pc]; refine setProc_field (·.pc) s ?_ p; rfl
    exact h1.setProc s.waitLock ⟨fun _ => id, id, fun h => h.elim⟩
      (.inr ⟨by rw [hpc]; rfl, trivial⟩)
  | wakeUp hr _ hpc =>
    rcases hpc with ⟨addr, hpc, rfl⟩ | ⟨hpc, rfl⟩ <;>
    exact hH.setProc s.waitLock ⟨fun _ => id, nofun, fun h => h.elim⟩
      (.inr ⟨by rw [hpc]; rfl, trivial⟩)
  | sched _ _ _ _ | yield _ _ _ =>
    exact hH.setState rfl rfl nofun nofun
  | wake _ => exact hH.rouse _ _
  | fault _ _ => exact hH.setProc s.waitLock ⟨fun _ => id, id, id⟩ (.inl rfl)

theorem heard_run (r : Run Init Procs.step h s) : Heard s := by
  induction r with
  | @init s hi =>
    have hpc : ∀ p, (s.proc p).pc = .user ∨ (s.proc p).pc = .dead := fun p => by
      by_cases hp : p = s.initproc
      · exact .inl (hp ▸ hi.initPc)
      · exact .inr (hi.pc p hp)
    refine ⟨fun p c hdc _ => ?_, fun p => ?_⟩
    · have := hdc.1
      rw [hi.parent c] at this; cases this
    · rcases hpc p with hp | hp <;> rw [hp] <;> trivial
  | step r hst ih => exact ih.step (inv_history r) (tidy_run r) (next_of_step hst)

/-- In every state of every run in which `wait_lock` is free, a process that is
SLEEPING in `wait` has no ZOMBIE child. -/
theorem no_sleep_past_zombie {h : List (Sys N × Act N)} {s : Sys N} (r : Run Init Procs.step h s)
    (hl : s.waitLock = none) (p c : Fin N) (hs : (s.proc p).state = .sleeping)
    (hch : (s.proc p).chan = some (.proc p)) (hp : (s.proc c).parent = some p) :
    (s.proc c).state ≠ .zombie := by
  intro hz
  have hI := inv_history r
  have hdeaf : (s.proc p).deaf := by
    have ha := hI.allows p
    have ht := tidy_run r p
    unfold Proc.deaf
    unfold Tidy at ht
    cases hpc : (s.proc p).pc <;> rw [hpc] at ha ht <;> simp_all [PC.allows]
  obtain ⟨-, q, st, j, k, hq, -⟩ := (heard_run r).child p c ⟨hp, hz⟩ hdeaf
  have := (hI.lock q).mpr (by rw [hq]; rfl)
  rw [hl] at this; cases this

end

/-- Init forks and waits for a child that has not exited. -/
def forkWait : List (Act 2) :=
  [.sched 0, .call 0 .fork, .run 0, .alloc 0 true, .run 0, .run 0,
    .call 0 (.wait 0), .run 0, .run 0, .run 0, .run 0, .run 0, .run 0, .run 0]

theorem no_sleep_past_zombie_forkWait : ∃ h s, Run Init step h s ∧ s.waitLock = none ∧
    (s.proc (0 : Fin 2)).state = .sleeping ∧ (s.proc 0).chan = some (.proc 0) ∧
    (s.proc 1).parent = some 0 ∧ (s.proc 1).state ≠ .zombie := by
  have hview : (exec step booted forkWait).map (fun s =>
      (s.waitLock, (s.proc 0).state, (s.proc 0).chan, (s.proc 1).parent)) =
      some (none, .sleeping, some (.proc 0), some 0) := by decide
  obtain ⟨s, r, hs⟩ := run_of_exec booted_init hview
  simp only [Prod.mk.injEq] at hs
  obtain ⟨hl, hst, hch, hp⟩ := hs
  exact ⟨_, s, r, hl, hst, hch, hp, no_sleep_past_zombie r hl 0 1 hst hch hp⟩

end Xv6.Procs
