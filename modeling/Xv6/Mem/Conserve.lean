/-
# `Xv6.Mem.Conserve` — runs of system calls: address spaces and pages

The machine takes one system call of one process at a time, with a list that says
which of its calls of `kalloc` fail although a page is free.  It starts after
`userinit` has made the first process, and stops at a panic.

**Proved here.**

  * the leaf mappings of every process, in every run (`address_space_shape`)
  * every page is in one place, in every run (`pages_conserved`)
-/
import Xv6.Mem.ProcSpec
import Xv6.Lib.Run

namespace Xv6.Mem

open Machine Function List Multiset

inductive Syscall
  | fork
  | exec (path : Bool) (uargs : List Uarg) (file : Option Elf)
  | sbrk (n : Int)
  | pipe (fdarray : Nat)
  | dup (fd : Int)
  | close (fd : Int)
  | open_ (device readable writable : Bool)
  | exit (status : Int)
  | wait (addr : Nat) (killed : Bool)

/-- `none` where the call sleeps. -/
def Syscall.run (im : Image) (p : Fin NPROC) : Syscall → Call (Option Int)
  | .fork => some <$> Mem.fork im p
  | .exec path uargs file => some <$> sysExec im p path uargs file
  | .sbrk n => some <$> growproc im p n
  | .pipe fdarray => some <$> sysPipe im p fdarray
  | .dup fd => some <$> sysDup p fd
  | .close fd => some <$> sysClose im p fd
  | .open_ device readable writable => some <$> sysOpen im p device readable writable
  | .exit status => do
    Mem.exit im p status
    return some 0
  | .wait addr killed => Mem.wait im p addr killed

structure Kernel where
  sys : Sys
  panicked : Option String

/-- Process `p` makes a call; `fails` says which calls of `kalloc` fail in it. -/
structure Act where
  p : Fin NPROC
  call : Syscall
  fails : List Bool

def Sys.withFails (s : Sys) (fails : List Bool) : Sys := { s with kmem := { s.kmem with fails } }

def step (im : Image) (k : Kernel) (a : Act) : Option Kernel := if k.panicked ≠ none then none
  else if (k.sys.proc a.p).state ≠ .runnable then none
  else
    match a.call.run im a.p (k.sys.withFails a.fails) with
    | .error msg => some ⟨k.sys, some msg⟩
    | .ok (none, _) => none
    | .ok (some _, s) => some ⟨s, none⟩

/-! ## Boot -/

/-- Memory as `kinit` and the kernel's own allocations leave it; the tables are zero. -/
structure Fresh (im : Image) (s : Sys) : Prop where
  pages : (s.kmem.freelist ++ s.kern).Perm (pages im.kend)
  enough : 9 ≤ s.kmem.freelist.length
  fails : s.kmem.fails = []
  proc : ∀ p, s.proc p = ⟨.unused, 0, 0, none, 0, none, none, fun _ => none, none⟩
  file : ∀ f, s.file f = ⟨.none, 0, false, false, 0⟩
  pipes : s.pipes = []

/-- The kernel starts to run processes. -/
def Init (im : Image) (k : Kernel) : Prop :=
  ∃ s, Fresh im s ∧ userinit im s = .ok ((), k.sys) ∧ k.panicked = none

/-- At least `n` pages can be allocated. -/
def Plenty (k : Kmem) (n : Nat) : Prop := k.fails = [] ∧ n ≤ k.freelist.length

variable {t c tf : Nat} {pt : Pgtbl} {α : Type}

theorem plenty_kalloc {k : Kmem} {n : Nat} (h : Plenty k (n + 1)) :
    Succeeds (kalloc t) k fun r k' => r ≠ none ∧ Plenty k' n := by
  obtain ⟨hf, hn⟩ := h
  unfold kalloc Succeeds
  simp only [hf]
  cases hfl : k.freelist with
  | nil => rw [hfl] at hn; exact absurd hn (by simp)
  | cons pa rest =>
    rw [hfl, length_cons] at hn
    exact ⟨_, _, rfl, by simp, rfl, by simpa using hn⟩

theorem plenty_walkFrom : ∀ {l : Nat} (pt : Tbl l) (va : Nat) {n : Nat} {k : Kmem},
    Plenty k (n + l) → Succeeds (walkFrom (some t) pt va) k fun r k' => r.1 = true ∧ Plenty k' n
  | 0, pt, va, n, k, h => Succeeds.pure ⟨rfl, h⟩
  | l + 1, pt, va, n, k, h => by
    cases hc : pt.child (px (l + 1) va) with
    | some c =>
      simp only [walkFrom, hc]
      exact (plenty_walkFrom c va ⟨h.1, by have := h.2; omega⟩).seq
        fun _ _ h' => Succeeds.pure h'
    | none =>
      simp only [walkFrom, hc]
      refine (plenty_kalloc h).seq fun r k1 h1 => ?_
      cases r with
      | none => exact absurd rfl h1.1
      | some pa =>
        exact (plenty_walkFrom (Tbl.fresh l pa) va h1.2).seq
          fun _ _ h' => Succeeds.pure h'

theorem plenty_mappages {n pa : Nat} {perm : Perm} {k : Kmem}
    (hn : n < MAXPAGE) (hfree : (pt.map n).v = false) (h : Plenty k (c + 2)) :
    Succeeds (mappages t pt (n * PGSIZE) PGSIZE pa perm) k fun r k' =>
      (Moves t k.ledger pt.tables k'.ledger r.2.tables ∧
        r.2.map = update pt.map n (perm.pte pa)) ∧ r.1 = true ∧ Plenty k' c := by
  have hok : Succeeds (mappages t pt (n * PGSIZE) PGSIZE pa perm) k fun r k' =>
      r.1 = true ∧ Plenty k' c := by
    have hva := lt_maxva hn
    unfold mappages
    rw [if_neg (by simp), if_neg (by simp), if_neg (by decide)]
    have hwalk : Succeeds (walk (some t) pt (n * PGSIZE)) k fun r k' => r.1 = true ∧ Plenty k' c := by
      unfold walk
      rw [if_neg (by omega)]
      exact plenty_walkFrom pt _ h
    refine (hwalk.and (succeeds_walk pt hva)).seq ?_
    rintro ⟨ok, pt'⟩ k' ⟨⟨rfl, hp⟩, hgrown, -⟩
    have hv : (pt'.leaf (n * PGSIZE)).v = false := by
      rwa [hgrown.leaf, ← Tbl.map_eq pt (lt_vpages hn)]
    simp only [Bool.true_eq_false, if_false, hv, Bool.false_eq_true]
    exact Succeeds.pure ⟨rfl, hp⟩
  refine ((succeeds_mappages hn hfree).and hok).mono ?_
  rintro r k' ⟨⟨hmv, -, hmap⟩, hr, hp⟩
  rw [if_pos hr] at hmap
  exact ⟨⟨hmv, hmap⟩, hr, hp⟩

theorem plenty_procPagetable {im : Image} {k : Kmem} (h : Plenty k (c + 5)) :
    Succeeds (procPagetable im t tf) k fun r k' => r ≠ none ∧ Plenty k' c := by
  have hcreate : Succeeds (uvmcreate t) k fun r k' => r ≠ none ∧ Plenty k' (c + 4) := by
    refine (plenty_kalloc h).seq fun r k' ⟨hr, h'⟩ => ?_
    cases r with
    | none => exact absurd rfl hr
    | some pa => exact Succeeds.pure ⟨by simp, h'⟩
  refine (hcreate.and succeeds_uvmcreate).seq ?_
  rintro r k1 ⟨⟨hr, h1⟩, hnew⟩
  cases r with
  | none => exact absurd rfl hr
  | some pt =>
    obtain ⟨hm, -⟩ := hnew
    refine (plenty_mappages (n := TRPAGE) (by decide) (by rw [hm]; rfl) h1).seq ?_
    rintro ⟨ok, pt1⟩ k2 ⟨⟨-, hm1⟩, rfl, h2⟩
    refine (plenty_mappages (n := TFPAGE) (by decide) ?_ h2).seq ?_
    · rw [hm1, update_of_ne (by decide), hm]; rfl
    rintro ⟨ok, pt2⟩ k3 ⟨-, rfl, h3⟩
    exact Succeeds.pure ⟨by simp, h3⟩

variable {im : Image} {s : Sys}

theorem plenty_allocproc (hun : ∃ p, (s.proc p).state = .unused) (h : Plenty s.kmem (c + 6)) :
    Succeeds (allocproc im) s fun r s' => r ≠ none ∧ Plenty s'.kmem c := by
  refine Succeeds.read ?_
  cases hfind : (List.finRange NPROC).find? fun p => (s.proc p).state = .unused with
  | none =>
    obtain ⟨p, hp⟩ := hun
    have := List.find?_eq_none.mp hfind p (mem_finRange p)
    exact absurd hp (by simpa using this)
  | some p =>
    refine succeeds_allocpid.seq ?_
    rintro _ _ ⟨rfl, rfl⟩
    refine Succeeds.write ?_
    refine (succeeds_onKmem (Q := fun r k' => r ≠ none ∧ Plenty k' (c + 5)) ?_).seq ?_
    · exact plenty_kalloc h
    rintro r _ ⟨k, rfl, hr, h1⟩
    cases r with
    | none => exact absurd rfl hr
    | some tf =>
      refine Succeeds.write ?_
      refine (succeeds_onKmem (Q := fun r k' => r ≠ none ∧ Plenty k' c) ?_).seq ?_
      · exact plenty_procPagetable h1
      rintro r _ ⟨k', rfl, hr, h2⟩
      cases r with
      | none => exact absurd rfl hr
      | some pt => exact Succeeds.write (Succeeds.pure ⟨by simp, h2⟩)

/-- Nothing is owned yet. -/
theorem Fresh.inv (h : Fresh im s) : Inv im s := by
  have hpages : ∀ p, (s.proc p).pages = 0 := fun p => by rw [h.proc p]; rfl
  have hrefs : ∀ p f, (s.proc p).refs f = 0 := fun p f => by
    rw [h.proc p]; exact Finset.sum_eq_zero fun _ _ => rfl
  have htype : ∀ f, (s.file f).type = .none := fun f => by rw [h.file f]
  have hend : ∀ f pi w, ¬ s.IsEnd f pi w := fun f pi w he => by
    have := he.1; rw [htype f] at this; cases this
  refine ⟨fun t => ⟨?_, fun a ha => absurd ha (notMem_zero a), fun p a ha => ?_,
    fun a ha => ?_⟩, fun p => ?_, ⟨fun f => ?_, fun f _ => htype f, fun f pi w he => ?_,
    fun pi hpi => ?_, fun f g pi w he => ?_, fun pi hpi => ?_⟩⟩
  · unfold Sys.inUse
    rw [Finset.sum_eq_zero fun p _ => hpages p, h.pipes, zero_add, zero_add]
    exact coe_eq_coe.mpr h.pages
  · rw [hpages p] at ha; exact absurd ha (notMem_zero a)
  · rw [h.pipes] at ha; exact absurd ha not_mem_nil
  · rw [h.proc p]; exact .unused rfl rfl rfl rfl rfl fun _ => rfl
  · rw [h.file f, Finset.sum_eq_zero fun p _ => hrefs p f]; rfl
  · exact absurd he (hend f pi w)
  · rw [h.pipes] at hpi; exact absurd hpi not_mem_nil
  · exact absurd he (hend f pi w)
  · rw [h.pipes] at hpi; exact absurd hpi not_mem_nil

theorem npages_pgsize : npages PGSIZE = 1 := by
  have := npages_mul (n := 1) (by decide)
  rwa [Nat.one_mul] at this

/-- The first user page. -/
theorem Shape.first {pt' : Pgtbl} {mem : Nat} (h : Shape im pt tf 0 none)
    (hm : pt'.map = update pt.map 0 ((Perm.mk true true true true).pte mem)) :
    Shape im pt' tf 1 none := by
  refine ⟨by decide, fun i hi => ?_, ?_, ?_, fun i h1 h2 h3 => ?_, fun g hg => by cases hg⟩
  · obtain rfl : i = 0 := by omega
    rw [hm, update_self]
    exact ⟨⟨rfl, rfl⟩, fun _ hg => (by cases hg), fun _ => rfl⟩
  · rw [hm, update_of_ne (by decide)]; exact h.trapframe
  · rw [hm, update_of_ne (by decide)]; exact h.trampoline
  · rw [hm, update_of_ne (by omega)]; exact h.rest i (Nat.zero_le i) h2 h3

theorem succeeds_uvmfirst {k : Kmem} (h : Plenty k (c + 3)) (hsh : Shape im pt tf 0 none) :
    Succeeds (uvmfirst t pt) k fun pt' k' =>
      Shape im pt' tf 1 none ∧ Moves t k.ledger pt.tables k'.ledger (owned pt' PGSIZE) := by
  refine ((plenty_kalloc h).and succeeds_kalloc).seq ?_
  rintro r k1 ⟨⟨hr, h1⟩, htaken⟩
  cases r with
  | none => exact absurd rfl hr
  | some mem =>
    have hfree : (pt.map 0).v = false := by
      rw [hsh.zero_above le_rfl (by decide)]; rfl
    refine (plenty_mappages (by decide) hfree h1).seq ?_
    rintro ⟨ok, pt'⟩ k2 ⟨⟨hmv, hm⟩, -, -⟩
    refine Succeeds.pure ⟨hsh.first hm, ?_⟩
    have hown : owned pt' PGSIZE = mem ::ₘ pt'.tables := by
      have hfr : frames pt'.map 0 1 = {mem} := by
        simp only [frames, hm, update_self]
        rfl
      unfold owned
      rw [npages_pgsize, hfr, add_comm, singleton_add]
    rw [hown]
    exact (htaken.2.2 _).trans (hmv.cons mem)

theorem succeeds_userinit (h : Fresh im s) : Succeeds (userinit im) s fun _ s' => Inv im s' := by
  have hI := h.inv
  have hun : ∃ p, (s.proc p).state = .unused := ⟨0, by rw [h.proc 0]⟩
  refine ((plenty_allocproc hun ⟨h.fails, h.enough⟩).and (succeeds_allocproc hI)).seq ?_
  rintro r s1 ⟨⟨hr, hplenty⟩, h1⟩
  cases r with
  | none => exact absurd rfl hr
  | some p =>
    obtain ⟨tf, pt, hp, hsh, hp1, hb1⟩ := h1
    have hrec : s1.proc p = (s.proc p).allocated s.nextpid tf pt := by
      rw [hp1, update_self]
    have hpages : (s1.proc p).pages = tf ::ₘ pt.tables := by
      rw [hrec]; exact Proc.pages_allocated (by rw [h.proc p]) _ _ _
    refine Succeeds.write (Succeeds.read ?_)
    simp only [show (s1.proc p).pagetable = some pt by rw [hrec]; rfl]
    refine (succeeds_onKmem (Q := fun pt' k' => Shape im pt' tf 1 none ∧
      Moves (s1.proc p).pid s1.kmem.ledger pt.tables k'.ledger (owned pt' PGSIZE)) ?_).seq ?_
    · exact succeeds_uvmfirst hplenty hsh
    rintro pt' _ ⟨k', rfl, hsh', hmv⟩
    refine Succeeds.write (Succeeds.update ?_)
    simp only [update_self, update_idem]
    have hb : Busy im (s1.withProc k' p
        { s1.proc p with state := .runnable, pagetable := some pt', sz := PGSIZE })
        (s1.proc p).pid 0 0 := by
      refine ⟨(hb1.owns.retag _).proc (.inr rfl) (.inr rfl) ?_, hb1.files.setProc rfl⟩
      rw [zero_add, zero_add, hpages]
      simp only [show (s1.proc p).trapframe = some tf by rw [hrec]; rfl]
      exact hmv.cons tf
    refine Busy.inv
      ⟨⟨hb.owns.total, hb.owns.mine, hb.owns.procs, hb.owns.pipes⟩,
        ⟨hb.files.ref, hb.files.closed, hb.files.listed, hb.files.ends, hb.files.same,
          hb.files.open_⟩⟩ fun q => ?_
    by_cases hq : q = p
    · subst hq
      simp only [update_self]
      refine .live (.inl rfl) (by rw [hrec]; rfl) rfl ?_ (show PGSIZE ≤ TRAPFRAME by decide)
      rw [npages_pgsize, show (s1.proc q).guard = none by rw [hrec, Proc.allocated, h.proc q]]
      exact hsh'
    · simp only [update_of_ne hq, hp1]
      exact hI.proc q

/-! ## Runs -/

theorem inv_init {k : Kernel} (h : Init im k) : Inv im k.sys := by
  obtain ⟨s, hf, hu, -⟩ := h
  exact (succeeds_userinit hf).result hu

/-- What `fails` says does not matter between calls. -/
theorem Inv.withFails (h : Inv im s) (fails : List Bool) : Inv im (s.withFails fails) :=
  ⟨fun t => ⟨(h.owns t).total, (h.owns t).mine, (h.owns t).procs, (h.owns t).pipes⟩, h.proc,
    ⟨h.files.ref, h.files.closed, h.files.listed, h.files.ends, h.files.same, h.files.open_⟩⟩

theorem succeeds_map {β : Type} {m : Call α} {f : α → β} {Q : Sys → Prop}
    (h : Succeeds m s fun _ s' => Q s') : Succeeds (f <$> m) s fun _ s' => Q s' := by
  obtain ⟨a, s', hm, hQ⟩ := h
  refine ⟨f a, s', ?_, hQ⟩
  show (m s >>= fun r => pure (f r.1, r.2)) = _
  rw [hm]
  rfl

/-- Every call keeps the invariant and does not panic, `exit` by the first process apart. -/
theorem succeeds_run {p : Fin NPROC} (h : Inv im s) (hr : (s.proc p).state = .runnable)
    (call : Syscall) (hexit : ∀ status, call = .exit status → s.initproc ≠ some p) :
    Succeeds (call.run im p) s fun _ s' => Inv im s' := by
  cases call with
  | fork => exact succeeds_map (succeeds_fork h hr)
  | exec path uargs file => exact succeeds_map (succeeds_sysExec h hr)
  | sbrk n => exact succeeds_map (succeeds_growproc h hr)
  | pipe fdarray => exact succeeds_map (succeeds_sysPipe h hr)
  | dup fd => exact succeeds_map (succeeds_sysDup h hr)
  | close fd => exact succeeds_map (succeeds_sysClose h hr)
  | open_ device readable writable => exact succeeds_map (succeeds_sysOpen h hr)
  | exit status =>
    exact (succeeds_exit h hr (hexit status rfl)).seq fun _ _ h' => Succeeds.pure h'
  | wait addr killed => exact succeeds_wait h

/-- The state between calls, and the one panic that is meant. -/
structure Good (im : Image) (k : Kernel) : Prop where
  inv : Inv im k.sys
  panicked : k.panicked = none ∨ k.panicked = some "init exiting"

theorem good_step {k k' : Kernel} {a : Act} (h : Good im k) (hs : step im k a = some k') :
    Good im k' := by
  unfold step at hs
  split at hs
  · cases hs
  split at hs
  · cases hs
  rename_i _ hrun
  have hr : (k.sys.proc a.p).state = .runnable := not_not.mp hrun
  have hI := h.inv.withFails a.fails
  by_cases hexit : ∀ status, a.call = .exit status → (k.sys.withFails a.fails).initproc ≠ some a.p
  · obtain ⟨r, s', hm, hI'⟩ := succeeds_run hI hr a.call hexit
    rw [hm] at hs
    cases r with
    | none => cases hs
    | some r =>
      cases hs
      exact ⟨hI', .inl rfl⟩
  · obtain ⟨status, hstatus⟩ := not_forall.mp hexit
    obtain ⟨hcall, hinit⟩ := Classical.not_imp.mp hstatus
    have hpanic : a.call.run im a.p (k.sys.withFails a.fails) = .error "init exiting" := by
      rw [hcall]
      show ((if (k.sys.withFails a.fails).initproc = some a.p then
        (throw "init exiting" : Call Unit) else _) (k.sys.withFails a.fails) >>= _) = _
      rw [if_pos (not_not.mp hinit)]
      rfl
    rw [hpanic] at hs
    cases hs
    exact ⟨h.inv, .inr rfl⟩

theorem good_run {h : List (Kernel × Act)} {k : Kernel} (r : Run (Init im) (step im) h k) :
    Good im k :=
  r.inv (fun k hk => ⟨inv_init hk, by obtain ⟨_, _, _, hn⟩ := hk; exact .inl hn⟩)
    fun _ _ _ hg hs => good_step hg hs

/-! ## A run

A machine with forty pages.  The first process forks; the child grows, makes a pipe,
and exits; in between a second `fork` runs out of pages; the parent waits. -/

def smallImage : Image where
  kend := PHYSTOP - 40 * PGSIZE
  trampoline := KERNBASE
  base := by decide
  fits := by decide

def freshSys : Sys where
  kmem := ⟨pages smallImage.kend, [], fun _ => 0⟩
  proc := fun _ => ⟨.unused, 0, 0, none, 0, none, none, fun _ => none, none⟩
  nextpid := 1
  initproc := none
  file := fun _ => ⟨.none, 0, false, false, 0⟩
  pipe := fun _ => ⟨false, false, 0⟩
  pipes := []
  kern := []

theorem freshSys_fresh : Fresh smallImage freshSys where
  pages := by
    show ((pages smallImage.kend) ++ []).Perm _
    rw [append_nil]
  enough := by decide +kernel
  fails := rfl
  proc _ := rfl
  file _ := rfl
  pipes := rfl

def booted : Kernel := match userinit smallImage freshSys with
  | .ok (_, s) => ⟨s, none⟩
  | .error msg => ⟨freshSys, some msg⟩

theorem booted_init : Init smallImage booted := by
  obtain ⟨a, s, hs, -⟩ := succeeds_userinit freshSys_fresh
  refine ⟨freshSys, freshSys_fresh, ?_, ?_⟩ <;> unfold booted <;> rw [hs]

scoped instance : NeZero NPROC := ⟨by decide⟩

def forkGrow : List Act := [⟨0, .fork, []⟩, ⟨1, .sbrk 8193, []⟩, ⟨1, .pipe 0, []⟩]

def exitWait : List Act :=
  [⟨0, .fork, [false, false, true]⟩, ⟨1, .exit 0, []⟩, ⟨0, .wait 0 false, []⟩]

/-- The machine reaches the end of a list of calls, and `f` of the state there is `v`. -/
theorem run_of_view (as : List Act) {f : Kernel → α} {v : α}
    (h : (Machine.exec (step smallImage) booted as).map f = some v) :
    ∃ h k, Run (Init smallImage) (step smallImage) h k ∧ f k = v := by
  exact ⟨_, run_of_exec booted_init h⟩

/-! ## Results -/

/-- In every run, the leaf mappings of every process are the pages below its size, the
trapframe and the trampoline, and no call panics except `exit` of the first process. -/
theorem address_space_shape {h : List (Kernel × Act)} {k : Kernel}
    (r : Run (Init im) (step im) h k) :
    (∀ p, (k.sys.proc p).state ≠ .unused → ∃ tf pt, (k.sys.proc p).trapframe = some tf ∧
      (k.sys.proc p).pagetable = some pt ∧
      Shape im pt tf (PGROUNDUP (k.sys.proc p).sz / PGSIZE) (k.sys.proc p).guard) ∧
    (k.panicked = none ∨ k.panicked = some "init exiting") := by
  have hg := good_run r
  refine ⟨fun p hp => ?_, hg.panicked⟩
  cases hg.inv.proc p with
  | unused hs => exact absurd hs hp
  | @live tf pt _ htf hpt hsh _ => exact ⟨tf, pt, htf, hpt, hsh⟩

set_option maxRecDepth 20000 in
theorem address_space_shape_child : ∃ h k, Run (Init smallImage) (step smallImage) h k ∧
    (k.sys.proc 1).state = .runnable ∧ (k.sys.proc 1).sz = 12289 ∧
    (∃ tf pt, (k.sys.proc 1).trapframe = some tf ∧ (k.sys.proc 1).pagetable = some pt ∧
      Shape smallImage pt tf (PGROUNDUP (k.sys.proc 1).sz / PGSIZE) (k.sys.proc 1).guard) ∧
    (k.panicked = none ∨ k.panicked = some "init exiting") := by
  obtain ⟨h, k, r, hv⟩ := run_of_view forkGrow
    (f := fun k => ((k.sys.proc 1).state, (k.sys.proc 1).sz)) (v := (.runnable, 12289))
    (by decide +kernel)
  obtain ⟨hstate, hsz⟩ := Prod.mk.injEq .. ▸ hv
  obtain ⟨hshape, hpanic⟩ := address_space_shape r
  exact ⟨h, k, r, hstate, hsz, hshape 1 (by rw [hstate]; exact nofun), hpanic⟩

/-- In every run, every page is free or in one place, a pipe's page has an open
descriptor, and what was allocated for a process that is gone is free again. -/
theorem pages_conserved {h : List (Kernel × Act)} {k : Kernel} (r : Run (Init im) (step im) h k) :
    ((k.sys.kmem.freelist : Multiset Nat) + (∑ p, (k.sys.proc p).pages + (k.sys.pipes + k.sys.kern))
      = pages im.kend ∧ (pages im.kend).Nodup) ∧
    (∀ pi ∈ k.sys.pipes, ∃ p fd f, (k.sys.proc p).ofile fd = some f ∧
      (k.sys.file f).type = .pipe ∧ (k.sys.file f).pipe = pi) ∧
    ∀ pid, (∀ p, (k.sys.proc p).state ≠ .unused → (k.sys.proc p).pid ≠ pid) →
      (∀ pi ∈ k.sys.pipes, (k.sys.pipe pi).creator ≠ pid) →
      ∀ a ∈ pages im.kend, k.sys.kmem.tag a = pid → a ∉ k.sys.kern → a ∈ k.sys.kmem.freelist := by
  have hI := (good_run r).inv
  have htotal : (k.sys.kmem.freelist : Multiset Nat) + k.sys.inUse = pages im.kend := by
    have := (hI.owns 0).total
    rwa [zero_add] at this
  refine ⟨⟨htotal, pages_nodup _⟩, fun pi hpi => ?_, fun pid hgone hpipes a ha htag hkern => ?_⟩
  · obtain ⟨w, hw⟩ := hI.files.open_ pi hpi
    obtain ⟨f, htype, hpipe, -⟩ := (hI.files.ends pi hpi w).mp hw
    -- a file that is in use has a descriptor
    have hpos : ∑ p, (k.sys.proc p).refs f ≠ 0 := by
      intro h0
      have href := hI.files.ref f
      rw [h0] at href
      have := hI.files.closed f (by simpa using href)
      rw [htype] at this
      cases this
    obtain ⟨p, -, hp⟩ := Finset.exists_ne_zero_of_sum_ne_zero hpos
    obtain ⟨fd, -, hfd⟩ := Finset.exists_ne_zero_of_sum_ne_zero hp
    refine ⟨p, fd, f, ?_, htype, hpipe⟩
    by_contra hne
    exact hfd (if_neg hne)
  · have hmem : a ∈ (k.sys.kmem.freelist : Multiset Nat) + k.sys.inUse := by
      rwa [htotal]
    rcases mem_add.mp hmem with hfree | huse
    · exact hfree
    · rcases mem_add.mp huse with hproc | huse
      · obtain ⟨p, -, hp⟩ := mem_sum.mp hproc
        have hstate : (k.sys.proc p).state ≠ .unused := by
          intro hs
          obtain ⟨htf, hpt, -⟩ := (hI.proc p).of_unused hs
          unfold Proc.pages at hp
          rw [htf, hpt] at hp
          exact absurd hp (notMem_zero a)
        exact absurd (((hI.owns 0).procs p a hp).symm.trans htag) (hgone p hstate)
      · rcases mem_add.mp huse with hpipe | hk
        · exact absurd (((hI.owns 0).pipes a hpipe).symm.trans htag) (hpipes a hpipe)
        · exact absurd hk hkern

set_option maxRecDepth 20000 in
theorem pages_conserved_reaped : ∃ h k, Run (Init smallImage) (step smallImage) h k ∧
    (∃ a ∈ pages smallImage.kend, k.sys.kmem.tag a = 2) ∧
    (∀ a ∈ pages smallImage.kend, k.sys.kmem.tag a = 2 → a ∈ k.sys.kmem.freelist) ∧
    (k.sys.kmem.freelist : Multiset Nat) + (∑ p, (k.sys.proc p).pages + (k.sys.pipes + k.sys.kern))
      = pages smallImage.kend := by
  obtain ⟨h, k, r, hv⟩ := run_of_view (forkGrow ++ exitWait)
    (f := fun k => ((List.finRange NPROC).all fun p =>
        (k.sys.proc p).state = .unused || (k.sys.proc p).pid ≠ 2, k.sys.pipes, k.sys.kern,
      (pages smallImage.kend).any fun a => k.sys.kmem.tag a = 2))
    (v := (true, [], [], true)) (by decide +kernel)
  simp only [Prod.mk.injEq, all_eq_true, mem_finRange, forall_const, any_eq_true,
    Bool.or_eq_true, decide_eq_true_eq] at hv
  obtain ⟨hgone, hpipes, hkern, htag⟩ := hv
  obtain ⟨⟨htotal, -⟩, -, hfree⟩ := pages_conserved r
  refine ⟨h, k, r, htag, fun a ha h2 => hfree 2 (fun p hp => (hgone p).resolve_left hp)
    (fun pi hpi => ?_) a ha h2 ?_, htotal⟩
  · rw [hpipes] at hpi; exact absurd hpi not_mem_nil
  · rw [hkern]; exact not_mem_nil

end Xv6.Mem
