/-
# `Xv6.Mem.ProcSpec` — processes are created, grow and are freed

The calls `sbrk`, `fork`, `exec`, `exit` and `wait`.  Whatever allocation fails, a
slot of the process table is unused or holds a whole process when the call returns,
and the pages that were taken are the process's or free again.
-/
import Xv6.Mem.FileSpec

namespace Xv6.Mem

open Machine Function List Multiset Option

variable {im : Image} {s : Sys} {t : Nat} {X : Multiset Nat} {extra : Fin NFILE → Int}

/-! ## freeproc -/

/-- A process with no open files whose page table, if it has one, has the shape. -/
structure Freeable (im : Image) (x : Proc) : Prop where
  space : ∀ pt, x.pagetable = some pt → ∃ tf g, Shape im pt tf (npages x.sz) g ∧ x.sz ≤ TRAPFRAME
  ofile : ∀ fd, x.ofile fd = none

/-- The record as `freeproc` leaves it. -/
def Proc.freed (x : Proc) : Proc :=
  { x with trapframe := none, pagetable := none, sz := 0, pid := 0, parent := none, xstate := 0,
           state := .unused, guard := none }

theorem Proc.pages_freed (x : Proc) : x.freed.pages = 0 := add_zero 0

/-- What a process holds besides its trapframe. -/
def Proc.space (x : Proc) : Multiset Nat := x.pagetable.elim 0 fun pt => owned pt x.sz

theorem Owns.proc_allOk (h : Owns im s t X) (p : Fin NPROC) :
    AllOk im.kend s.kmem (X + (s.proc p).pages) :=
  h.allOk (by rw [inUse_eq s p, add_assoc])

variable {x : Proc} {q p : Fin NPROC} {tf n : Nat} {pt pt' : Pgtbl} {g : Option Nat}
  {file : Option Elf}

/-- The pages of a process with pid `t` go back. -/
theorem succeeds_freeproc_kmem {k : Kmem} (hf : Freeable im x) (hok : AllOk im.kend k x.space) :
    Succeeds (match x.pagetable with
      | some pt => procFreepagetable im pt x.sz
      | none => pure ()) k fun _ k' => Moves t k.ledger x.space k'.ledger 0 := by
  unfold Proc.space at *
  cases hpt : x.pagetable with
  | none =>
    refine Succeeds.pure ?_
    exact Moves.refl _ _ _
  | some pt =>
    rw [hpt] at hok
    obtain ⟨tf, g, hsh, hsz⟩ := hf.space pt hpt
    refine (succeeds_procFreepagetable hsh hsz hok).mono fun _ k' h => ?_
    have := h t 0
    rwa [add_zero] at this

theorem succeeds_freeproc (h : Busy im s t 0 extra) (hf : Freeable im (s.proc q)) :
    Succeeds (freeproc im q) s fun _ s' => Busy im s' t 0 extra ∧
      s'.proc = update s.proc q (s.proc q).freed := by
  have hok : AllOk im.kend s.kmem (s.proc q).pages := by
    have := h.owns.proc_allOk q
    rwa [zero_add] at this
  -- once the trapframe is back, whether there was one or not
  have hrest : ∀ k, Moves (s.proc q).pid s.kmem.ledger (s.proc q).pages k.ledger (s.proc q).space →
      Succeeds (do
        setProc q fun x => { x with trapframe := none }
        match (s.proc q).pagetable with
        | some pt => onKmem (procFreepagetable im pt (s.proc q).sz)
        | none => pure ()
        setProc q fun x =>
          { x with pagetable := none, sz := 0, pid := 0, parent := none, xstate := 0,
                   state := .unused, guard := none }) { s with kmem := k }
        fun _ s' => Busy im s' t 0 extra ∧ s'.proc = update s.proc q (s.proc q).freed := by
    intro k hmv
    refine Succeeds.write ?_
    have hk := succeeds_freeproc_kmem (t := (s.proc q).pid) hf (hok.moves hmv)
    have hlast : ∀ k', Moves (s.proc q).pid k.ledger (s.proc q).space k'.ledger 0 →
        Succeeds (setProc q fun x =>
          { x with pagetable := none, sz := 0, pid := 0, parent := none, xstate := 0,
                   state := .unused, guard := none })
          (s.withProc k' q { s.proc q with trapframe := none }) fun _ s' => Busy im s' t 0 extra ∧
            s'.proc = update s.proc q (s.proc q).freed := by
      intro k' hmv'
      refine Succeeds.update ?_
      simp only [update_self, update_idem]
      refine ⟨⟨Owns.retag (t := (s.proc q).pid) ?_ t, h.files.setProc rfl⟩, rfl⟩
      refine (h.owns.retag _).proc (x := (s.proc q).freed) (.inr rfl)
        (.inl (Proc.pages_freed _)) ?_
      rw [Proc.pages_freed, add_zero, zero_add]
      exact hmv.trans hmv'
    cases hpt : (s.proc q).pagetable with
    | none =>
      rw [hpt] at hk
      exact hlast k (hk.result rfl)
    | some pt =>
      rw [hpt] at hk
      refine Succeeds.seq (succeeds_onKmem hk) ?_
      rintro _ _ ⟨k', rfl, hm⟩
      exact hlast k' hm
  refine Succeeds.read ?_
  cases htf : (s.proc q).trapframe with
  | none =>
    refine hrest s.kmem ?_
    rw [show (s.proc q).pages = (s.proc q).space by
      unfold Proc.pages Proc.space; rw [htf, elim_none, zero_add]]
    exact Moves.refl _ _ _
  | some tf =>
    have hpages : (s.proc q).pages = tf ::ₘ (s.proc q).space := by
      unfold Proc.pages Proc.space
      rw [htf, elim_some, singleton_add]
    have htfok : PageOk im.kend tf := by
      rw [hpages] at hok
      exact hok.held (mem_cons_self _ _)
    refine (succeeds_onKmem (succeeds_kfree htfok)).seq ?_
    rintro _ _ ⟨k, rfl, hm⟩
    exact hrest k (by rw [hpages]; exact hm _ _)

/-! ## allocproc -/

theorem AllOk.none {e : Nat} {k : Kmem} {X : Multiset Nat} (h : AllOk e k X) : AllOk e k 0 :=
  AllOk.left (by rwa [zero_add])

theorem ProcOk.of_unused (h : ProcOk im x) (hs : x.state = .unused) :
    x.trapframe = none ∧ x.pagetable = none ∧ x.sz = 0 ∧ x.guard = none ∧ ∀ fd, x.ofile fd = none := by
  cases h with
  | unused _ h1 h2 h3 h4 h5 => exact ⟨h1, h2, h3, h4, h5⟩
  | live hr =>
    rcases hr with hr | ⟨hr, -⟩ <;> rw [hs] at hr <;> cases hr

theorem Inv.setNextpid (h : Inv im s) (n : Nat) : Inv im { s with nextpid := n } :=
  ⟨fun t => ⟨(h.owns t).total, (h.owns t).mine, (h.owns t).procs, (h.owns t).pipes⟩, h.proc,
    ⟨h.files.ref, h.files.closed, h.files.listed, h.files.ends, h.files.same, h.files.open_⟩⟩

/-- The slot `allocproc` has filled in. -/
def Proc.allocated (x : Proc) (pid tf : Nat) (pt : Pgtbl) : Proc :=
  { x with pid := pid, state := .used, trapframe := some tf, pagetable := some pt }

theorem Proc.pages_allocated (hsz : x.sz = 0) (pid tf : Nat) (pt : Pgtbl) :
    (x.allocated pid tf pt).pages = tf ::ₘ pt.tables := by
  unfold Proc.pages Proc.allocated
  simp only [elim_some, hsz, owned_zero]
  exact singleton_add _ _

/-- One slot gets a record that is right. -/
theorem procOk_update (h : ∀ p, ProcOk im (s.proc p)) (hx : ProcOk im x) :
    ∀ p, ProcOk im (update s.proc q x p) :=
  (forall_update_iff _ fun _ => ProcOk im).mpr ⟨hx, fun p _ => h p⟩

/-- After a failure the slot is as it was, with nothing in it. -/
theorem Busy.inv_freed {s' : Sys} (h : Inv im s) (hb : Busy im s' t 0 0)
    (hx : ∀ fd, x.ofile fd = none) (hp : s'.proc = update s.proc q x.freed) :
    Inv im s' := by
  refine hb.inv ?_
  rw [hp]
  exact procOk_update h.proc (.unused rfl rfl rfl rfl rfl hx)

theorem succeeds_allocpid : Succeeds allocpid s fun pid s' =>
    pid = s.nextpid ∧ s' = { s with nextpid := s.nextpid + 1 } := ⟨_, _, rfl, rfl, rfl⟩

/-- A slot with a trapframe and an empty address space, or nothing. -/
theorem succeeds_allocproc (h : Inv im s) : Succeeds (allocproc im) s fun r s' =>
      match r with
      | none => Inv im s'
      | some np => ∃ tf pt, (s.proc np).state = .unused ∧ Shape im pt tf 0 none ∧
          s'.proc = update s.proc np ((s.proc np).allocated s.nextpid tf pt) ∧
          Busy im s' s.nextpid 0 0 := by
  refine Succeeds.read ?_
  cases hfind : (List.finRange NPROC).find? fun p => (s.proc p).state = .unused with
  | none => exact Succeeds.pure h
  | some p =>
    have hstate : (s.proc p).state = .unused := by simpa using List.find?_some hfind
    obtain ⟨htf, hpt, hsz, hg, hof⟩ := (h.proc p).of_unused hstate
    replace h := h.setNextpid (s.nextpid + 1)
    have hpages0 : (s.proc p).pages = 0 := by
      unfold Proc.pages
      rw [htf, hpt]
      rfl
    have hok : AllOk im.kend s.kmem 0 := by
      have := (h.owns 0).proc_allOk p
      rw [zero_add] at this
      exact hpages0 ▸ this
    -- any record with a new pid whose pages the allocator has just handed out
    have hfill : ∀ (k : Kmem) (x : Proc), x.pid = s.nextpid → x.ofile = (s.proc p).ofile →
        Moves s.nextpid s.kmem.ledger 0 k.ledger x.pages →
        Busy im ({ s with nextpid := s.nextpid + 1 }.withProc k p x) s.nextpid 0 0 := by
      intro k x hpid hofile hmv
      refine ⟨(h.owns s.nextpid).proc (.inl hpages0) (.inr hpid) ?_, h.files.setProc hofile⟩
      rw [zero_add, zero_add]
      exact hpages0 ▸ hmv
    refine succeeds_allocpid.seq ?_
    rintro _ _ ⟨rfl, rfl⟩
    refine Succeeds.write ?_
    refine (succeeds_onKmem succeeds_kalloc).seq ?_
    rintro r _ ⟨k, rfl, htaken⟩
    cases r with
    | none =>
      refine Succeeds.write ?_
      simp only [update_self, update_idem]
      have hb := hfill k { s.proc p with pid := s.nextpid, state := .used, trapframe := none }
        rfl rfl (by
          rw [show k.ledger = s.kmem.ledger from htaken]
          simp only [hpt]
          exact Moves.refl _ _ _)
      refine (succeeds_freeproc hb ⟨fun pt hpt' => ?_, fun fd => ?_⟩).seq
        fun _ s' ⟨hb', hp'⟩ => Succeeds.pure ?_
      · simp only [update_self, hpt] at hpt'
        cases hpt'
      · simp only [update_self]
        exact hof fd
      · simp only [update_self, update_idem] at hp'
        exact Busy.inv_freed h hb' hof hp'
    | some tf =>
      refine Succeeds.write ?_
      have hmv := htaken.2.2 0
      refine (succeeds_onKmem (succeeds_procPagetable (hok.moves hmv).none)).seq ?_
      rintro r _ ⟨k', rfl, hr⟩
      cases r with
      | none =>
        refine Succeeds.write ?_
        simp only [update_self, update_idem]
        have hb := hfill k'
          { s.proc p with pid := s.nextpid, state := .used, trapframe := some tf,
                          pagetable := none }
          rfl rfl (hmv.trans (hr.frame {tf}))
        refine (succeeds_freeproc hb ⟨fun pt hpt' => ?_, fun fd => ?_⟩).seq
          fun _ s' ⟨hb', hp'⟩ => Succeeds.pure ?_
        · simp only [update_self] at hpt'
          cases hpt'
        · simp only [update_self]
          exact hof fd
        · simp only [update_self, update_idem] at hp'
          exact Busy.inv_freed h hb' hof hp'
      | some pt =>
        obtain ⟨hshape, hmv'⟩ := hr
        refine Succeeds.write (Succeeds.pure ?_)
        simp only [update_self, update_idem]
        refine ⟨tf, pt, hstate, hshape, rfl, hfill k' ((s.proc p).allocated s.nextpid tf pt)
          rfl rfl ?_⟩
        rw [Proc.pages_allocated hsz]
        exact hmv.trans (hmv'.cons tf)

/-! ## sbrk -/

/-- A process that can make calls. -/
theorem ProcOk.of_runnable (h : ProcOk im x) (hs : x.state = .runnable) :
    ∃ tf pt, x.trapframe = some tf ∧ x.pagetable = some pt ∧
      Shape im pt tf (npages x.sz) x.guard ∧ x.sz ≤ TRAPFRAME ∧ x.pages = tf ::ₘ owned pt x.sz := by
  cases h with
  | unused hu => rw [hs] at hu; cases hu
  | @live tf pt _ htf hpt hsh hsz =>
    refine ⟨tf, pt, htf, hpt, hsh, hsz, ?_⟩
    unfold Proc.pages
    rw [htf, hpt, elim_some, elim_some, singleton_add]

/-- The address space of process `p`, whose other pages the call does not touch. -/
theorem Owns.space (h : Owns im s t X) (hpages : (s.proc p).pages = tf ::ₘ owned pt (s.proc p).sz)
    (hsh : Shape im pt tf (npages (s.proc p).sz) (s.proc p).guard) (hsz : (s.proc p).sz ≤ TRAPFRAME) :
    Space im s.kmem pt tf (s.proc p).sz (s.proc p).guard := by
  have hsplit : X + s.inUse = owned pt (s.proc p).sz + (tf ::ₘ (X + s.others p)) := by
    rw [inUse_eq s p, hpages, cons_add, add_cons, add_cons, ← add_assoc, ← add_assoc, add_comm X]
  exact ⟨hsh, hsz, h.room hsplit, h.allOk hsplit⟩

/-- Process `p` gets another address space. -/
theorem Inv.setSpace (h : Inv im s) {k : Kmem} {sz : Nat}
    (hr : (s.proc p).state = .runnable) (htf : (s.proc p).trapframe = some tf)
    (hpages : (s.proc p).pages = tf ::ₘ owned pt (s.proc p).sz)
    (hsh : Shape im pt' tf (npages sz) g) (hsz : sz ≤ TRAPFRAME)
    (hmv : Moves (s.proc p).pid s.kmem.ledger (owned pt (s.proc p).sz) k.ledger (owned pt' sz)) :
    Inv im (s.withProc k p { s.proc p with pagetable := some pt', sz := sz, guard := g }) := by
  have hnew : ({ s.proc p with pagetable := some pt', sz := sz, guard := g } : Proc).pages
      = tf ::ₘ owned pt' sz := by
    unfold Proc.pages
    simp only [htf, elim_some, singleton_add]
  have hb : Busy im (s.withProc k p { s.proc p with pagetable := some pt', sz := sz, guard := g })
      (s.proc p).pid 0 0 := by
    refine ⟨(h.owns _).proc (.inr rfl) (.inr rfl) ?_, h.files.setProc rfl⟩
    rw [hnew, hpages, zero_add, zero_add]
    exact hmv.cons tf
  exact hb.inv (procOk_update h.proc (.live (.inl hr) htf rfl hsh hsz))

/-- Pages taken away from the top. -/
theorem Shape.shrink {m : Nat} (h : Shape im pt tf n g)
    (hmn : m ≤ n) (hm : pt'.map = clear pt.map m (n - m)) :
    Shape im pt' tf m (g.filter fun i => i < m) := by
  have hroom : n ≤ 67108862 := h.room
  have hkeep : ∀ i, i < m ∨ n ≤ i → pt'.map i = pt.map i := by
    intro i hi
    rw [hm]
    exact if_neg (by omega)
  refine ⟨hmn.trans h.room, fun i hi => ?_, ?_, ?_, fun i h1 h2 h3 => ?_, fun i hi => ?_⟩
  · obtain ⟨hmap, hu⟩ := h.user i (by omega)
    rw [hkeep i (.inl hi)]
    refine ⟨hmap, hu.trans (not_congr ?_)⟩
    rw [filter_eq_some_iff]
    exact ⟨fun hg => ⟨hg, by simpa using hi⟩, fun hg => hg.1⟩
  · rw [hkeep TFPAGE (.inr h.room)]; exact h.trapframe
  · rw [hkeep TRPAGE (.inr (by show n ≤ 67108863; omega))]; exact h.trampoline
  · by_cases hi : i < n
    · rw [hm]; exact if_pos (by omega)
    · rw [hkeep i (.inr (by omega))]; exact h.rest i (by omega) h2 h3
  · have := (filter_eq_some_iff.mp hi).2
    simpa using this

theorem succeeds_growproc {n : Int} (h : Inv im s) (hr : (s.proc p).state = .runnable) :
    Succeeds (growproc im p n) s fun _ s' => Inv im s' := by
  obtain ⟨tf, pt, htf, hpt, hsh, hsz, hpages⟩ := (h.proc p).of_runnable hr
  have hspace := (h.owns 0).space hpages hsh hsz
  refine Succeeds.read ?_
  simp only [hpt]
  split
  · refine (succeeds_onKmem (succeeds_grow hspace)).seq ?_
    rintro ⟨sz', pt'⟩ _ ⟨k, rfl, hg⟩
    unfold GrownSpace at hg
    by_cases h0 : sz' = 0
    · rw [if_pos h0] at hg
      simp only [h0, if_true]
      exact Succeeds.pure (h.setSpace hr htf hpages hg.1.shape hsz hg.2)
    · rw [if_neg h0] at hg
      simp only [h0, if_false]
      refine Succeeds.write (Succeeds.pure ?_)
      simp only [update_self, update_idem]
      exact h.setSpace hr htf hpages hg.1.shape hg.1.size hg.2.1
  · split
    · refine (succeeds_onKmem (succeeds_uvmdealloc (size_le_maxva hsz) (fun i _ hi => ?_)
        fun i _ hi => ?_)).seq ?_
      · exact (hsh.user i hi).1
      · exact hspace.ok.right.held (mem_frames (Nat.zero_le i) (by omega))
      rintro ⟨sz', pt'⟩ _ ⟨k, rfl, hmin, ht, hm, hmv⟩
      refine Succeeds.write (Succeeds.pure ?_)
      simp only at hmin ht hm hmv
      have hle : sz' ≤ (s.proc p).sz := by rw [hmin]; exact Nat.min_le_left _ _
      have hnp : npages sz' ≤ npages (s.proc p).sz := npages_mono (size_le_maxva hsz) hle
      refine h.setSpace hr htf hpages (hsh.shrink hnp hm) (hle.trans hsz) ?_
      -- the pages below the new size stay, those above go back
      have hsplit : owned pt (s.proc p).sz
          = frames pt.map (npages sz') (npages (s.proc p).sz - npages sz') + owned pt' sz' := by
        have hfr := frames_add pt.map 0 (npages sz') (npages (s.proc p).sz - npages sz')
        rw [Nat.add_sub_cancel' hnp, Nat.zero_add] at hfr
        have hlow : frames pt'.map 0 (npages sz') = frames pt.map 0 (npages sz') :=
          frames_congr fun i _ hi => by
            rw [hm]
            unfold clear
            rw [if_neg (by omega)]
        unfold owned
        rw [hfr, hlow, ht, add_comm (frames pt.map (npages sz') _), add_assoc]
      rw [hsplit]
      exact hmv _ _
    · exact Succeeds.pure h

/-! ## fork -/

/-- The descriptors of `p` are copied to `np`, which had none. -/
theorem succeeds_dupFiles {np : Fin NPROC} (h : Busy im s t X 0)
    (hnone : ∀ fd, (s.proc np).ofile fd = none) :
    Succeeds (dupFiles p np) s fun _ s' => Busy im s' t X 0 ∧ Refiled np s s' := by
  -- the descriptors still to come are closed in the child
  refine (Succeeds.forM (I := fun as s' => as.Nodup ∧ Busy im s' t X 0 ∧ Refiled np s s' ∧
    ∀ fd ∈ as, (s'.proc np).ofile fd = none) ?_ (List.finRange NOFILE)
    ⟨nodup_finRange _, h, .of_eq rfl, fun fd _ => hnone fd⟩).mono
    fun _ s' hs' => ⟨hs'.2.1, hs'.2.2.1⟩
  rintro fd as s1 ⟨hnd, hb1, hr1, hn1⟩
  obtain ⟨hfd, hnd⟩ := nodup_cons.mp hnd
  refine Succeeds.read ?_
  cases hf : (s1.proc p).ofile fd with
  | none => exact Succeeds.pure ⟨hnd, hb1, hr1, fun i hi => hn1 i (mem_cons_of_mem _ hi)⟩
  | some f =>
    refine (succeeds_filedup hb1 (hb1.files.ref_pos hf le_rfl)).seq fun _ s2 ⟨hb2, hp2⟩ => ?_
    have hfree : (s2.proc np).ofile fd = none := by
      rw [hp2]; exact hn1 fd mem_cons_self
    refine (succeeds_setOfile hb2 hfree).mono fun _ s3 ⟨hb3, _, hp3⟩ => ?_
    rw [one_none, add_zero, add_sub_cancel_right] at hb3
    refine ⟨hnd, hb3, hr1.trans (Refiled.trans (.of_eq hp2) ⟨_, hp3⟩), fun i hi => ?_⟩
    have hi' : i ≠ fd := fun he => hfd (he ▸ hi)
    rw [hp3, hp2]
    simp only [update_self, update_of_ne hi']
    exact hn1 i (mem_cons_of_mem _ hi)

/-- A copy of a space, page by page. -/
theorem Shape.copied {old : Pgtbl} {tf' : Nat}
    (hold : Shape im old tf n g) (h : Shape im pt tf' 0 none)
    (ha : Adds (fun i => (old.map i).perm) pt.map pt'.map 0 n) : Shape im pt' tf' n g := by
  have hroom : n ≤ 67108862 := hold.room
  refine ⟨hold.room, fun i hi => ?_, ?_, ?_, fun i h1 h2 h3 => ?_, hold.inside⟩
  · obtain ⟨⟨-, hr⟩, hu⟩ := hold.user i hi
    obtain ⟨pa, hpa⟩ := ha.new i (Nat.zero_le i) (by omega)
    rw [hpa]
    exact ⟨⟨rfl, hr⟩, hu⟩
  · rw [ha.old TFPAGE (.inr (by rw [Nat.zero_add]; exact hold.room))]; exact h.trapframe
  · rw [ha.old TRPAGE (.inr (by show 0 + n ≤ 67108863; omega))]; exact h.trampoline
  · rw [ha.old i (.inr (by omega))]; exact h.rest i (Nat.zero_le i) h2 h3

theorem succeeds_fork (h : Inv im s) (hr : (s.proc p).state = .runnable) :
    Succeeds (fork im p) s fun _ s' => Inv im s' := by
  refine (succeeds_allocproc h).seq fun r s1 h1 => ?_
  cases r with
  | none => exact Succeeds.pure h1
  | some np =>
    obtain ⟨tf, new, hun, hshape, hp1, hb1⟩ := h1
    obtain ⟨htf0, old, -, hold, hsh, hsz, -⟩ := (h.proc p).of_runnable hr
    obtain ⟨-, -, hsz0, hg0, hof⟩ := (h.proc np).of_unused hun
    have hne : p ≠ np := by
      rintro rfl
      rw [hun] at hr; cases hr
    have hpp : s1.proc p = s.proc p := by rw [hp1, update_of_ne hne]
    have hnp : s1.proc np = (s.proc np).allocated s.nextpid tf new := by
      rw [hp1, update_self]
    have hpages : (s1.proc np).pages = tf ::ₘ new.tables := by
      rw [hnp]; exact Proc.pages_allocated hsz0 _ _ _
    have hsplit : 0 + s1.inUse = new.tables + (tf ::ₘ s1.others np) := by
      rw [zero_add, inUse_eq s1 np, hpages, cons_add, add_cons]
    refine Succeeds.read ?_
    simp only [hpp, hold, show (s1.proc np).pagetable = some new by rw [hnp]; rfl]
    refine (succeeds_onKmem (succeeds_uvmcopy (size_le_maxva hsz)
      (fun i hi => (hsh.user i hi).1) ?_ (fun i hi => hshape.zero_above (Nat.zero_le i) hi)
      (hb1.owns.allOk hsplit))).seq ?_
    · have := hb1.owns.room hsplit
      omega
    rintro ⟨ok, new'⟩ _ ⟨k, rfl, hc⟩
    -- the child with a record whose pages the allocator has handed out for it
    have hfill : ∀ x : Proc, x.pid = s.nextpid → x.ofile = (s1.proc np).ofile →
        Moves s.nextpid s1.kmem.ledger (tf ::ₘ new.tables) k.ledger x.pages →
        Busy im (s1.withProc k np x) s.nextpid 0 0 := by
      intro x hpid hofile hmv
      refine ⟨hb1.owns.proc (.inr (by rw [hnp]; rfl)) (.inr hpid) ?_, hb1.files.setProc hofile⟩
      rwa [zero_add, zero_add, hpages]
    have hpid : (s1.proc np).pid = s.nextpid := by rw [hnp]; rfl
    have hsz1 : (s1.proc np).sz = 0 := by rwa [hnp]
    have htf1 : (s1.proc np).trapframe = some tf := by rw [hnp]; rfl
    have hof1 : ∀ fd, (s1.proc np).ofile fd = none := fun fd => by rw [hnp]; exact hof fd
    rw [hpid] at hc
    refine Succeeds.write ?_
    rcases hc with ⟨rfl, hadds, hmv, -⟩ | ⟨rfl, hmap, hmv⟩
    · simp only [Bool.true_eq_false, if_false]
      refine Succeeds.write ?_
      simp only [update_self, update_idem]
      have hb2 := hfill { s1.proc np with pagetable := some new', sz := (s.proc p).sz,
                                          guard := (s.proc p).guard } hpid rfl (by
        simp only [htf1]
        exact hmv.cons tf)
      refine (succeeds_dupFiles hb2 fun fd => ?_).seq fun _ s3 ⟨hb3, hr3⟩ => ?_
      · simp only [update_self]; exact hof1 fd
      refine Succeeds.write (Succeeds.write (Succeeds.pure ?_))
      simp only [update_self, update_idem]
      refine Busy.inv ⟨hb3.owns.setProc rfl rfl, hb3.files.setProc rfl⟩ ?_
      obtain ⟨o, ho⟩ := hr3
      simp only [ho, update_self, update_idem]
      refine (forall_update_iff _ fun _ => ProcOk im).mpr
        ⟨.live (.inl rfl) htf1 rfl (hsh.copied hshape hadds) hsz, fun q hq => ?_⟩
      rw [hp1, update_of_ne hq]
      exact h.proc q
    · simp only [if_true]
      have hb2 := hfill { s1.proc np with pagetable := some new' } hpid rfl (by
        unfold Proc.pages
        simp only [htf1, elim_some, hsz1, owned_zero, singleton_add]
        exact hmv.cons tf)
      refine (succeeds_freeproc hb2 ⟨fun pt hpt => ?_, fun fd => ?_⟩).seq
        fun _ s3 ⟨hb3, hp3⟩ => Succeeds.pure ?_
      · simp only [update_self, Option.some.injEq] at hpt ⊢
        subst hpt
        refine ⟨tf, none, ?_, by rw [hsz1]; exact Nat.zero_le _⟩
        rw [hsz1]
        exact hshape.of_map hmap
      · simp only [update_self]; exact hof1 fd
      · simp only [update_self, update_idem] at hp3
        have hup : ∀ x, update s1.proc np x = update s.proc np x := fun x => by
          rw [hp1, update_idem]
        rw [hup] at hp3
        exact Busy.inv_freed h hb3 hof1 hp3

/-! ## exit and wait -/

/-- Every open file of `p` is closed. -/
theorem succeeds_closeFiles (h : Busy im s t X 0) :
    Succeeds (closeFiles im p) s fun _ s' => Busy im s' t X 0 ∧ Refiled p s s' ∧
      ∀ fd, (s'.proc p).ofile fd = none := by
  refine (Succeeds.forM (I := fun as s' => Busy im s' t X 0 ∧ Refiled p s s' ∧
    ∀ fd, fd ∉ as → (s'.proc p).ofile fd = none) ?_ (List.finRange NOFILE)
    ⟨h, .of_eq rfl, fun fd hfd => absurd (mem_finRange fd) hfd⟩).mono
    fun _ s' ⟨hb, hr, hn⟩ => ⟨hb, hr, fun fd => hn fd not_mem_nil⟩
  rintro fd as s1 ⟨hb1, hr1, hn1⟩
  refine Succeeds.read ?_
  cases hf : (s1.proc p).ofile fd with
  | none =>
    refine Succeeds.pure ⟨hb1, hr1, fun i hi => ?_⟩
    by_cases hifd : i = fd
    · rwa [hifd]
    · exact hn1 i (not_mem_cons_of_ne_of_not_mem hifd hi)
  | some f =>
    refine (succeeds_fileclose hb1 (hb1.files.ref_pos hf le_rfl)).seq fun _ s2 ⟨hb2, hp2⟩ => ?_
    have hf2 : (s2.proc p).ofile fd = some f := by rwa [hp2]
    refine (succeeds_setOfile hb2 hf2).mono fun _ s3 ⟨hb3, _, hp3⟩ => ?_
    rw [one_none, sub_zero, sub_add_cancel] at hb3
    refine ⟨hb3, hr1.trans (Refiled.trans (.of_eq hp2) ⟨_, hp3⟩), fun i hi => ?_⟩
    rw [hp3, hp2]
    by_cases hifd : i = fd
    · subst hifd; simp only [update_self]
    · simp only [update_self, update_of_ne hifd]
      exact hn1 i (not_mem_cons_of_ne_of_not_mem hifd hi)

/-- Records change that own the same pages and files. -/
theorem Busy.setProcs (h : Busy im s t X extra) {proc : Fin NPROC → Proc}
    (hp : ∀ q, (proc q).pages = (s.proc q).pages ∧ (proc q).pid = (s.proc q).pid ∧
      (proc q).ofile = (s.proc q).ofile) : Busy im { s with proc := proc } t X extra := by
  refine ⟨⟨?_, h.owns.mine, fun q a ha => ?_, h.owns.pipes⟩,
    ⟨fun f => ?_, h.files.closed, h.files.listed, h.files.ends, h.files.same, h.files.open_⟩⟩
  · rw [← h.owns.total]
    unfold Sys.inUse
    rw [Finset.sum_congr rfl fun q _ => (hp q).1]
  · simp only [(hp q).1] at ha
    simp only [(hp q).2.1]
    exact h.owns.procs q a ha
  · rw [h.files.ref f]
    congr 1
    refine Finset.sum_congr rfl fun q _ => ?_
    unfold Proc.refs
    rw [(hp q).2.2]

/-- `exit` panics in `init`, and nowhere else. -/
theorem succeeds_exit {status : Int} (h : Inv im s) (hr : (s.proc p).state = .runnable)
    (hinit : s.initproc ≠ some p) : Succeeds (exit im p status) s fun _ s' => Inv im s' := by
  obtain ⟨tf, pt, htf, hpt, hsh, hsz, -⟩ := (h.proc p).of_runnable hr
  refine Succeeds.read ?_
  rw [if_neg hinit]
  refine (succeeds_closeFiles (h.busy 0)).seq fun _ s1 ⟨hb1, hr1, hn1⟩ => ?_
  have hok1 := hr1.procOk hr h.proc
  have hp1 : s1.proc p = { s.proc p with ofile := (s1.proc p).ofile } := by
    obtain ⟨o, ho⟩ := hr1
    rw [ho, update_self]
  have hb2 : Busy im { s1 with proc := fun q =>
      if (s1.proc q).parent = some p then { s1.proc q with parent := s1.initproc } else s1.proc q }
      0 0 0 := by
    refine hb1.setProcs fun q => ?_
    split <;> exact ⟨rfl, rfl, rfl⟩
  refine Succeeds.update (Busy.inv ⟨hb2.owns.setProc rfl rfl, hb2.files.setProc rfl⟩
    fun q => ?_)
  by_cases hq : q = p
  · subst hq
    simp only [update_self]
    split <;>
      exact .live (.inr ⟨rfl, hn1⟩) (by rwa [hp1]) (by rwa [hp1]) (by rwa [hp1]) (by rwa [hp1])
  · simp only [update_of_ne hq]
    split
    · cases hok1 q with
      | unused a b c d e f => exact .unused a b c d e f
      | live a b c d e => exact .live a b c d e
    · exact hok1 q

theorem ProcOk.freeable (h : ProcOk im x) (hs : x.state = .zombie) : Freeable im x := by
  cases h with
  | unused hu => rw [hs] at hu; cases hu
  | @live tf pt hr _ hpt hsh hsz =>
    rcases hr with hr | ⟨-, hof⟩
    · rw [hs] at hr; cases hr
    · refine ⟨fun pt' hpt' => ?_, hof⟩
      rw [hpt] at hpt'
      cases hpt'
      exact ⟨tf, x.guard, hsh, hsz⟩

theorem succeeds_wait {addr : Nat} {killed : Bool} (h : Inv im s) :
    Succeeds (wait im p addr killed) s fun _ s' => Inv im s' := by
  refine Succeeds.read ?_
  cases hfind : (List.finRange NPROC).find? fun q =>
      (s.proc q).parent = some p ∧ (s.proc q).state = .zombie with
  | none =>
    simp only
    split <;> exact Succeeds.pure h
  | some q =>
    have hq : (s.proc q).parent = some p ∧ (s.proc q).state = .zombie := by
      simpa using List.find?_some hfind
    simp only
    split
    · exact Succeeds.pure h
    · have hf := (h.proc q).freeable hq.2
      exact (succeeds_freeproc (h.busy 0) hf).seq fun _ s' ⟨hb, hp⟩ =>
        Succeeds.pure (Busy.inv_freed h hb hf.ofile hp)

/-! ## exec -/

/-- The pages that hold the argument strings. -/
def argPages (argv : List (Pa × Nat)) : Multiset Nat := (argv.map Prod.fst : List Nat)

theorem argPages_append (argv : List (Pa × Nat)) (pa len : Nat) :
    argPages (argv ++ [(pa, len)]) = pa ::ₘ argPages argv := by
  unfold argPages
  rw [map_append, ← coe_add, add_comm]
  rfl

theorem succeeds_fetchArgs : ∀ (uargs : List Uarg) {i : Nat} {argv : List (Pa × Nat)} {k : Kmem},
    Succeeds (fetchArgs t uargs i argv) k fun r k' =>
      Moves t k.ledger (argPages argv) k'.ledger (argPages r.2)
  | [], _, _, _ => Succeeds.pure (Moves.refl _ _ _)
  | uarg :: uargs, i, argv, k => by
    unfold fetchArgs
    split
    · exact Succeeds.pure (Moves.refl _ _ _)
    cases uarg with
    | fault | null => exact Succeeds.pure (Moves.refl _ _ _)
    | str len =>
      refine succeeds_kalloc.seq fun r k1 h => ?_
      cases r with
      | none =>
        refine Succeeds.pure ?_
        rw [show k1.ledger = k.ledger from h]
        exact Moves.refl _ _ _
      | some pa =>
        have hmv := h.2.2 (argPages argv)
        cases len with
        | none =>
          refine Succeeds.pure ?_
          rwa [argPages_append]
        | some len =>
          refine (succeeds_fetchArgs uargs).mono fun r k' h' => ?_
          rw [argPages_append] at h'
          exact hmv.trans h'

theorem succeeds_freeArgs : ∀ (argv : List (Pa × Nat)) {k : Kmem}, AllOk im.kend k (argPages argv) →
    Succeeds (freeArgs im argv) k fun _ k' => Moves t k.ledger (argPages argv) k'.ledger 0
  | [], _, _ => Succeeds.pure (Moves.refl _ _ _)
  | (pa, len) :: argv, k, hok => by
    have hcons : argPages ((pa, len) :: argv) = pa ::ₘ argPages argv := rfl
    rw [hcons] at hok ⊢
    refine (succeeds_kfree (hok.held (mem_cons_self _ _))).seq fun _ k1 h => ?_
    exact (succeeds_freeArgs argv (hok.moves (h t _))).mono fun _ k' h' => (h t _).trans h'

theorem succeeds_exec {argv : List Nat} (h : Busy im s (s.proc p).pid X 0)
    (hok : ∀ q, ProcOk im (s.proc q)) (hr : (s.proc p).state = .runnable) :
    Succeeds (exec im p file argv) s fun _ s' =>
      Busy im s' (s.proc p).pid X 0 ∧ ∀ q, ProcOk im (s'.proc q) := by
  obtain ⟨tf, old, htf, hpt, hsh, hsz, hpages⟩ := (hok p).of_runnable hr
  have hall := h.owns.proc_allOk p
  rw [hpages, add_cons, ← singleton_add, ← add_assoc] at hall
  refine Succeeds.read ?_
  simp only [htf, hpt]
  refine (succeeds_onKmem (succeeds_execImage hall.none ?_)).seq ?_
  · have := h.owns.room (by rw [zero_add])
    rwa [card_zero, add_zero] at this
  rintro r _ ⟨k, rfl, hexec⟩
  cases r with
  | none =>
    refine Succeeds.pure ⟨h.moves ?_, hok⟩
    have := Moves.frame hexec X
    rwa [zero_add] at this
  | some l =>
    obtain ⟨hmv, hsp⟩ := hexec
    refine Succeeds.write ?_
    have hboth := hmv.frame (owned old (s.proc p).sz)
    rw [zero_add] at hboth
    have hold : AllOk im.kend k (owned old (s.proc p).sz) := (hall.right.moves hboth).right
    refine (succeeds_onKmem (succeeds_procFreepagetable hsh hsz hold)).seq ?_
    rintro _ _ ⟨k', rfl, hfree⟩
    refine Succeeds.pure ⟨⟨?_, h.files.setProc rfl⟩,
      procOk_update hok (.live (.inl hr) htf rfl hsp.shape hsp.size)⟩
    · refine h.owns.proc
        (.inr rfl) (.inr rfl) ?_
      unfold Proc.pages
      simp only [htf, hpt, elim_some, singleton_add, add_cons]
      refine Moves.cons ?_ tf
      -- the new space is there before the old one goes
      have h1 := hmv.frame (owned old (s.proc p).sz + X)
      rw [zero_add] at h1
      have h2 := hfree (s.proc p).pid (owned l.pagetable l.sz + X)
      rw [add_comm X, add_comm X]
      refine h1.trans ?_
      rwa [← add_assoc, add_comm (owned l.pagetable l.sz), add_assoc]

theorem succeeds_sysExec {path : Bool} {uargs : List Uarg} (h : Inv im s)
    (hr : (s.proc p).state = .runnable) :
    Succeeds (sysExec im p path uargs file) s fun _ s' => Inv im s' := by
  refine Succeeds.read ?_
  split
  · exact Succeeds.pure h
  -- the argument pages go back on both ways out
  have hback : ∀ (s1 : Sys) (argv : List (Pa × Nat)) (r : Int),
      Busy im s1 (s.proc p).pid (argPages argv) 0 → (∀ q, ProcOk im (s1.proc q)) →
      Succeeds (do onKmem (freeArgs im argv); return r) s1 fun _ s' => Inv im s' := by
    intro s1 argv r hb hok
    refine (succeeds_onKmem (succeeds_freeArgs (t := (s.proc p).pid) argv (hb.owns.allOk rfl))).seq ?_
    rintro _ _ ⟨k, rfl, hmv⟩
    exact Succeeds.pure ((hb.moves hmv).inv hok)
  refine (succeeds_onKmem (succeeds_fetchArgs uargs)).seq ?_
  rintro ⟨ok, argv⟩ _ ⟨k, rfl, hmv⟩
  have hb : Busy im { s with kmem := k } (s.proc p).pid (argPages argv) 0 := (h.busy _).moves hmv
  simp only
  split
  · exact hback _ argv (-1) hb h.proc
  · refine (succeeds_exec hb h.proc hr).seq fun r s2 ⟨hb2, hok2⟩ => ?_
    exact hback s2 argv r hb2 hok2

end Xv6.Mem
