/-
# `Xv6.Mem.FileSpec` — reference counts and pipes

The functions of `file.c` and `pipe.c` and the calls `dup`, `close`, `open` and
`pipe`.  Each keeps the count of every file equal to the references that exist, and
gives a pipe's page back exactly when its second end is closed.
-/
import Xv6.Mem.Inv
import Mathlib.Algebra.Order.BigOperators.Group.Finset

namespace Xv6.Mem

open Machine Function List Multiset

variable {im : Image} {s : Sys} {t : Nat} {X : Multiset Nat} {extra : Fin NFILE → Int}

/-- A call is in progress that holds pages `X` and references `extra`. -/
structure Busy (im : Image) (s : Sys) (t : Nat) (X : Multiset Nat) (extra : Fin NFILE → Int) :
    Prop where
  owns : Owns im s t X
  files : Files s extra

theorem succeeds_onKmem {α : Type} {m : Kern α} {Q : α → Kmem → Prop} (h : Succeeds m s.kmem Q) :
    Succeeds (onKmem m) s fun a s' => ∃ k, s' = { s with kmem := k } ∧ Q a k := by
  obtain ⟨a, k, hm, hQ⟩ := h
  refine ⟨a, _, ?_, k, rfl, hQ⟩
  show (m s.kmem >>= fun r => pure (r.1, { s with kmem := r.2 })) = _
  rw [hm]
  rfl

/-! ## Descriptors -/

@[simp] theorem one_self (f : Fin NFILE) : one (some f) f = 1 := if_pos rfl

variable {f g : Fin NFILE} {p : Fin NPROC} {o o' : Option (Fin NFILE)} {extra' : Fin NFILE → Int}

theorem one_of_ne (h : f ≠ g) : one (some f) g = 0 := if_neg fun he => h (Option.some.inj he)

@[simp] theorem one_none : one none = 0 := rfl

theorem one_nonneg (o : Option (Fin NFILE)) (f : Fin NFILE) : 0 ≤ one o f := by
  unfold one
  split <;> omega

theorem refs_nonneg (x : Proc) (f : Fin NFILE) : 0 ≤ x.refs f :=
  Finset.sum_nonneg fun _ _ => one_nonneg _ f

theorem sum_refs_nonneg (proc : Fin NPROC → Proc) (f : Fin NFILE) : 0 ≤ ∑ p, (proc p).refs f :=
  Finset.sum_nonneg fun _ _ => refs_nonneg _ f

/-- A file that a descriptor refers to. -/
theorem sum_refs_pos {proc : Fin NPROC → Proc} {fd : Fin NOFILE} (h : (proc p).ofile fd = some f) :
    1 ≤ ∑ p, (proc p).refs f := by
  have h1 : one ((proc p).ofile fd) f ≤ (proc p).refs f :=
    Finset.single_le_sum (fun _ _ => one_nonneg _ f)
      (Finset.mem_univ fd)
  have h2 : (proc p).refs f ≤ ∑ p, (proc p).refs f :=
    Finset.single_le_sum (fun p _ => refs_nonneg _ f)
      (Finset.mem_univ p)
  rw [h, one_self] at h1
  omega

theorem refs_update (x : Proc) (fd : Fin NOFILE) (o : Option (Fin NFILE)) (f : Fin NFILE) :
    ({ x with ofile := update x.ofile fd o } : Proc).refs f + one (x.ofile fd) f
      = x.refs f + one o f :=
  sum_update_add (fun o => one o f) x.ofile fd o

/-- A process changes; its descriptors stay. -/
theorem Files.setProc (h : Files s extra) {x : Proc} {k : Kmem} (hx : x.ofile = (s.proc p).ofile) :
    Files (s.withProc k p x) extra := by
  refine { h with ref := fun f => ?_ }
  have hrefs : x.refs f = (s.proc p).refs f := by unfold Proc.refs; rw [hx]
  have := sum_update_add (fun x : Proc => x.refs f) s.proc p x
  have := h.ref f
  simp only at *
  omega

/-- A descriptor is set; the reference it gets and the one it had are the call's. -/
theorem Files.setOfile (h : Files s extra) {fd : Fin NOFILE} (ho : (s.proc p).ofile fd = o') :
    Files (s.withProc s.kmem p { s.proc p with ofile := update (s.proc p).ofile fd o })
      (extra + one o' - one o) := by
  refine { h with ref := fun f => ?_ }
  have h1 := refs_update (s.proc p) fd o f
  have h2 := sum_update_add (fun x : Proc => x.refs f) s.proc p
    { s.proc p with ofile := update (s.proc p).ofile fd o }
  have h3 := h.ref f
  rw [ho] at h1
  simp only [Pi.add_apply, Pi.sub_apply] at *
  omega

theorem succeeds_setOfile {fd : Fin NOFILE} (h : Busy im s t X extra)
    (ho : (s.proc p).ofile fd = o') :
    Succeeds (setOfile p fd o) s fun _ s' => Busy im s' t X (extra + one o' - one o) ∧
      s'.file = s.file ∧ s'.proc = update s.proc p
        { s.proc p with ofile := update (s.proc p).ofile fd o } :=
  Succeeds.update ⟨⟨h.owns.setProc rfl rfl, h.files.setOfile ho⟩, rfl, rfl⟩

theorem succeeds_fdalloc (h : Busy im s t X extra) : Succeeds (fdalloc p f) s fun r s' =>
      match r with
      | none => s' = s
      | some fd => (s.proc p).ofile fd = none ∧ Busy im s' t X (extra - one (some f)) ∧
          s'.file = s.file ∧ s'.proc = update s.proc p
            { s.proc p with ofile := update (s.proc p).ofile fd (some f) } := by
  refine Succeeds.read ?_
  cases hfd : (List.finRange NOFILE).find? fun fd => (s.proc p).ofile fd = none with
  | none => exact Succeeds.pure rfl
  | some fd =>
    have hnone : (s.proc p).ofile fd = none := by simpa using List.find?_some hfd
    refine (succeeds_setOfile h hnone).seq fun _ s' ⟨h1, h2⟩ => Succeeds.pure ⟨hnone, ?_, h2⟩
    rwa [one_none, add_zero] at h1

/-! ## filealloc, filedup -/

/-- File `f` changes: counts and closed files. -/
theorem Files.counts (h : Files s extra) {x : File} (hclosed : x.ref = 0 → x.type = .none)
    (hextra : extra' = extra + Pi.single f ((x.ref : Int) - (s.file f).ref)) :
    (∀ g, ((update s.file f x g).ref : Int) = ∑ p, (s.proc p).refs g + extra' g) ∧
      ∀ g, (update s.file f x g).ref = 0 → (update s.file f x g).type = .none := by
  refine ⟨(forall_update_iff s.file fun g y => (y.ref : Int) = ∑ p, (s.proc p).refs g +
      extra' g).mpr ⟨?_, fun g hg => ?_⟩, (forall_update_iff s.file fun _ y => y.ref = 0 →
      y.type = .none).mpr ⟨hclosed, fun g _ => h.closed g⟩⟩
  · have := h.ref f
    rw [hextra, Pi.add_apply, Pi.single_eq_same]
    omega
  · rw [h.ref g, hextra, Pi.add_apply, Pi.single_eq_of_ne hg, add_zero]

/-- File `f` changes, and is the end of a pipe that it was. -/
theorem Files.setFile (h : Files s extra) {x : File}
    (hend : ∀ pi w, (x.type = .pipe ∧ x.pipe = pi ∧ x.writable = w) ↔ s.IsEnd f pi w)
    (hclosed : x.ref = 0 → x.type = .none)
    (hextra : extra' = extra + Pi.single f ((x.ref : Int) - (s.file f).ref)) :
    Files { s with file := update s.file f x } extra' := by
  have hiff : ∀ g pi w, Sys.IsEnd { s with file := update s.file f x } g pi w ↔ s.IsEnd g pi w :=
    (forall_update_iff s.file fun g y => ∀ pi w,
      (y.type = .pipe ∧ y.pipe = pi ∧ y.writable = w) ↔ s.IsEnd g pi w).mpr
      ⟨hend, fun _ _ _ _ => Iff.rfl⟩
  obtain ⟨href, hcl⟩ := h.counts hclosed hextra
  refine ⟨href, hcl, fun g pi w hg => h.listed g pi w ((hiff ..).mp hg), fun pi hpi w => ?_,
    fun f g pi w h1 h2 => h.same f g pi w ((hiff ..).mp h1) ((hiff ..).mp h2), h.open_⟩
  rw [h.ends pi hpi w]
  exact exists_congr fun g => (hiff g pi w).symm

/-- `f` gets another count; its type stays. -/
theorem Files.setRef (h : Files s extra) {n : Nat} (hn : n = 0 → (s.file f).type = .none) :
    Files { s with file := update s.file f { s.file f with ref := n } }
      (extra + Pi.single f ((n : Int) - (s.file f).ref)) :=
  h.setFile (fun _ _ => Iff.rfl) hn rfl

theorem single_one (f : Fin NFILE) : Pi.single f 1 = one (some f) := by
  funext g
  by_cases hg : g = f
  · subst hg; rw [Pi.single_eq_same, one_self]
  · rw [Pi.single_eq_of_ne hg, one_of_ne fun h => hg h.symm]

theorem Busy.setFile (h : Busy im s t X extra) {file : Fin NFILE → File}
    (hf : Files { s with file } extra') : Busy im { s with file } t X extra' :=
  ⟨{ h.owns with }, hf⟩

/-- The call gets a reference to a file that was free. -/
theorem succeeds_filealloc (h : Busy im s t X extra) : Succeeds filealloc s fun r s' =>
      match r with
      | none => s' = s
      | some f => (s.file f).ref = 0 ∧ (s.file f).type = .none ∧
          s' = { s with file := update s.file f { s.file f with ref := 1 } } ∧
          Busy im s' t X (extra + one (some f)) := by
  refine Succeeds.read ?_
  cases hf : (List.finRange NFILE).find? fun f => (s.file f).ref = 0 with
  | none => exact Succeeds.pure rfl
  | some f =>
    have hzero : (s.file f).ref = 0 := by simpa using List.find?_some hf
    refine Succeeds.seq (Succeeds.update rfl)
      fun _ s' hs' => Succeeds.pure ⟨hzero, h.files.closed f hzero, hs', ?_⟩
    have := h.files.setRef (f := f) (n := 1) nofun
    rw [hzero] at this
    subst hs'
    refine h.setFile ?_
    rwa [← single_one]

theorem succeeds_filedup (h : Busy im s t X extra) (hf : 1 ≤ (s.file f).ref) :
    Succeeds (filedup f) s fun _ s' => Busy im s' t X (extra + one (some f)) ∧
      s'.proc = s.proc := by
  refine Succeeds.read ?_
  rw [if_neg (by omega)]
  refine Succeeds.update ⟨h.setFile ?_, rfl⟩
  have := h.files.setRef (f := f) (n := (s.file f).ref + 1) nofun
  rw [← single_one]
  rwa [show (((s.file f).ref + 1 : Nat) : Int) - (s.file f).ref = 1 by omega] at this

/-! ## fileclose -/

/-- `f` as `fileclose` leaves it. -/
def Sys.forget (s : Sys) (f : Fin NFILE) : Fin NFILE → File :=
  update s.file f { s.file f with ref := 0, type := .none }

theorem isEnd_forget {s' : Sys} (hs' : s'.file = s.forget f) (g : Fin NFILE) (pi : Pa) (w : Bool) :
    s'.IsEnd g pi w ↔ g ≠ f ∧ s.IsEnd g pi w := by
  unfold Sys.IsEnd Sys.forget at *
  rw [hs']
  by_cases hg : g = f
  · subst hg; simp
  · simp [hg]

/-- The counts once the last reference to `f` is gone. -/
theorem extra_forget (hf : (s.file f).ref = 1) :
    extra - one (some f) = extra + Pi.single f (((0 : Nat) : Int) - (s.file f).ref) := by
  rw [hf, ← single_one, sub_eq_add_neg, ← Pi.single_neg]
  rfl

/-- The last reference to a file that is no pipe. -/
theorem Files.forget (h : Files s extra) (hf : (s.file f).ref = 1) (hp : (s.file f).type ≠ .pipe) :
    Files { s with file := s.forget f } (extra - one (some f)) :=
  h.setFile (fun _ _ => ⟨nofun, fun h => absurd h.1 hp⟩) (fun _ => rfl) (extra_forget hf)

/-- One end closed. -/
def Pipe.close (x : Pipe) (w : Bool) : Pipe :=
  if w = true then { x with writeopen := false } else { x with readopen := false }

theorem isOpen_close (x : Pipe) (w w' : Bool) :
    (x.close w).isOpen w' = (x.isOpen w' && (w != w')) := by
  cases w <;> cases w' <;> simp [Pipe.close, Pipe.isOpen]

def Sys.closeEnd (s : Sys) (f : Fin NFILE) (pi : Pa) (w : Bool) (pipes : List Pa) : Sys :=
  { s with file := s.forget f, pipe := update s.pipe pi ((s.pipe pi).close w), pipes := pipes }

variable {f f0 f1 : Fin NFILE} {pi : Pa} {p : Fin NPROC}

/-- The last reference to the end `f` of a pipe: the pipe stays exactly if the other
end is open. -/
theorem Files.closeEnd (h : Files s extra) {w : Bool} (pipes : List Pa) (hf : (s.file f).ref = 1)
    (hend : s.IsEnd f pi w)
    (hpipes : ∀ q, q ∈ pipes ↔ q ∈ s.pipes ∧ (q = pi → (s.pipe pi).isOpen (!w) = true)) :
    Files (s.closeEnd f pi w pipes) (extra - one (some f)) := by
  have hiff := isEnd_forget (show (s.closeEnd f pi w pipes).file = _ from rfl)
  obtain ⟨href, hclosed⟩ := h.counts (x := { s.file f with ref := 0, type := .none }) (fun _ => rfl)
    (extra_forget hf)
  refine ⟨href, hclosed, fun g q w' hg => ?_, fun q hq w' => ?_, fun g g' q w' h1 h2 => ?_,
    fun q hq => ?_⟩
  · obtain ⟨hne, hgs⟩ := (hiff ..).mp hg
    refine (hpipes q).mpr ⟨h.listed g q w' hgs, fun hq => ?_⟩
    subst hq
    -- another file on this pipe can only be its other end
    have hw : w' = !w := by
      cases w <;> cases w' <;> first | rfl | exact absurd (h.same _ _ _ _ hgs hend) hne
    rw [← hw]
    exact (h.ends q (h.listed g q w' hgs) w').mpr ⟨g, hgs⟩
  · have hends := h.ends q ((hpipes q).mp hq).1 w'
    rw [exists_congr fun g => hiff g q w']
    by_cases hqp : q = pi
    · subst hqp
      simp only [Sys.closeEnd, update_self, isOpen_close, Bool.and_eq_true, bne_iff_ne]
      constructor
      · rintro ⟨ho, hw⟩
        obtain ⟨g, hg⟩ := hends.mp ho
        exact ⟨g, fun hgf => hw (by rw [← hend.2.2, ← hg.2.2, hgf]), hg⟩
      · rintro ⟨g, hne, hg⟩
        exact ⟨hends.mpr ⟨g, hg⟩, fun hw => hne (h.same g f q w' hg (hw ▸ hend))⟩
    · simp only [Sys.closeEnd, update_of_ne hqp]
      rw [hends]
      exact exists_congr fun g =>
        ⟨fun hg => ⟨fun hgf => hqp (by rw [← hend.2.1, ← hg.2.1, hgf]), hg⟩, fun hg => hg.2⟩
  · exact h.same g g' q w' ((hiff ..).mp h1).2 ((hiff ..).mp h2).2
  · obtain ⟨hq, ho⟩ := (hpipes q).mp hq
    by_cases hqp : q = pi
    · subst hqp
      refine ⟨!w, ?_⟩
      simp only [Sys.closeEnd, update_self, isOpen_close, ho rfl]
      cases w <;> rfl
    · simp only [Sys.closeEnd, update_of_ne hqp]
      exact h.open_ q hq

theorem mem_inUse_proc {p : Fin NPROC} {a : Nat} (ha : a ∈ (s.proc p).pages) : a ∈ s.inUse :=
  mem_add.mpr (.inl (mem_sum.mpr ⟨p, Finset.mem_univ p, ha⟩))

theorem mem_inUse_pipe {a : Nat} (ha : a ∈ s.pipes) : a ∈ s.inUse :=
  mem_add.mpr (.inr (mem_add.mpr (.inl ha)))

/-- A pipe's page goes back to the allocator. -/
theorem Owns.freePipe (h : Owns im s t X) {s' : Sys} (hpi : pi ∈ s.pipes) (hproc : s'.proc = s.proc)
    (hpipes : s'.pipes = s.pipes.erase pi) (hkern : s'.kern = s.kern)
    (hcr : ∀ q, (s'.pipe q).creator = (s.pipe q).creator)
    (hmv : ∀ t X, Moves t s.kmem.ledger (pi ::ₘ X) s'.kmem.ledger X) : Owns im s' t X := by
  have hcons : (s.pipes : Multiset Nat) = pi ::ₘ (s'.pipes : Multiset Nat) := by
    rw [hpipes, cons_coe, coe_eq_coe]
    exact perm_cons_erase hpi
  have hin : pi ::ₘ (X + s'.inUse) = X + s.inUse := by
    unfold Sys.inUse
    rw [hproc, hkern, hcons, cons_add, add_cons, add_cons]
  have hrest : ∀ a ∈ X + s'.inUse, s'.kmem.ledger.tag a = s.kmem.ledger.tag a := by
    intro a ha
    refine (hmv t 0).rest ?_ ha
    rw [cons_add, zero_add, hin]
    exact h.nodup
  refine ⟨?_, fun a ha => ?_, fun p a ha => ?_, fun a ha => ?_⟩
  · rw [(hmv t _).same, hin]; exact h.total
  · rw [hrest a (mem_add.mpr (.inl ha))]; exact h.mine a ha
  · rw [hrest a (mem_add.mpr (.inr (mem_inUse_proc ha)))]
    rw [hproc] at ha ⊢
    exact h.procs p a ha
  · rw [hrest a (mem_add.mpr (.inr (mem_inUse_pipe ha))), hcr]
    rw [hpipes] at ha
    exact h.pipes a (mem_of_mem_erase ha)

theorem Owns.pipes_nodup (h : Owns im s t X) : s.pipes.Nodup := by
  have := h.nodup
  rw [nodup_add] at this
  have := (nodup_add.mp this.2.1).2.1
  exact (nodup_add.mp (nodup_add.mp this).2.1).1

theorem creator_close (x : Pipe) (w : Bool) : (x.close w).creator = x.creator := by
  cases w <;> rfl

/-- `fileclose` on the last reference to an end of a pipe. -/
theorem succeeds_pipeclose {w : Bool} (h : Busy im s t X extra) (hf : (s.file f).ref = 1)
    (hend : s.IsEnd f pi w) :
    Succeeds (pipeclose im pi w) { s with file := s.forget f } fun _ s' =>
      Busy im s' t X (extra - one (some f)) ∧ s'.proc = s.proc := by
  have hpi : pi ∈ s.pipes := h.files.listed f pi w hend
  have hmem : ∀ q, q ∈ s.pipes.erase pi ↔ q ≠ pi ∧ q ∈ s.pipes := fun q =>
    h.owns.pipes_nodup.mem_erase_iff
  have hcr : ∀ q, (update s.pipe pi ((s.pipe pi).close w) q).creator
      = (s.pipe q).creator :=
    (forall_update_iff s.pipe fun q y => y.creator = (s.pipe q).creator).mpr
      ⟨creator_close _ _, fun _ _ => rfl⟩
  have hother : ((s.pipe pi).close w).readopen = false ∧ ((s.pipe pi).close w).writeopen = false
      ↔ (s.pipe pi).isOpen (!w) = false := by
    cases w <;> simp [Pipe.close, Pipe.isOpen]
  show Succeeds (if ((s.closeEnd f pi w s.pipes).pipe pi).readopen = false ∧
    ((s.closeEnd f pi w s.pipes).pipe pi).writeopen = false then _ else _)
    (s.closeEnd f pi w s.pipes) _
  simp only [Sys.closeEnd, update_self]
  by_cases hopen : (s.pipe pi).isOpen (!w) = true
  · rw [if_neg (fun hc => by rw [hother.mp hc] at hopen; cases hopen)]
    refine Succeeds.pure ⟨⟨⟨h.owns.total, h.owns.mine, h.owns.procs, fun a ha => ?_⟩,
      h.files.closeEnd s.pipes hf hend fun q => ⟨fun hq => ⟨hq, fun _ => hopen⟩, fun hq => hq.1⟩⟩, rfl⟩
    rw [hcr]; exact h.owns.pipes a ha
  · rw [if_pos (hother.mpr (by simpa using hopen))]
    refine (succeeds_onKmem (succeeds_kfree ?_)).mono ?_
    · refine pageOk_of_mem im ?_
      have : pi ∈ (pages im.kend : Multiset Nat) := by
        rw [← h.owns.total]
        exact mem_add.mpr (.inr (mem_add.mpr (.inr (mem_inUse_pipe hpi))))
      exact this
    · rintro _ s' ⟨k', rfl, hmv⟩
      have := h.files.closeEnd (s.pipes.erase pi) hf hend fun q => by
        rw [hmem]
        exact ⟨fun hq => ⟨hq.2, fun he => absurd he hq.1⟩, fun hq => ⟨fun he => hopen (hq.2 he), hq.1⟩⟩
      exact ⟨⟨h.owns.freePipe hpi rfl rfl rfl hcr hmv, { this with }⟩, rfl⟩

theorem succeeds_fileclose (h : Busy im s t X extra) (hf : 1 ≤ (s.file f).ref) :
    Succeeds (fileclose im f) s fun _ s' =>
      Busy im s' t X (extra - one (some f)) ∧ s'.proc = s.proc := by
  refine Succeeds.read ?_
  rw [if_neg (by omega)]
  by_cases hlast : 0 < (s.file f).ref - 1
  · rw [if_pos hlast]
    refine Succeeds.update ⟨h.setFile ?_, rfl⟩
    have := h.files.setRef (f := f) (n := (s.file f).ref - 1) (fun h => by omega)
    rwa [show (((s.file f).ref - 1 : Nat) : Int) - (s.file f).ref = -1 by omega, Pi.single_neg,
      single_one, ← sub_eq_add_neg] at this
  · rw [if_neg hlast]
    have hone : (s.file f).ref = 1 := by omega
    refine Succeeds.seq (Succeeds.update (Q := fun _ s' => s' = { s with file := s.forget f }) rfl)
      fun _ s1 hs1 => ?_
    subst hs1
    by_cases hp : (s.file f).type = .pipe
    · rw [if_pos hp]
      exact succeeds_pipeclose h hone ⟨hp, rfl, rfl⟩
    · rw [if_neg hp]
      exact Succeeds.pure ⟨h.setFile (h.files.forget hone hp), rfl⟩

/-! ## pipealloc -/

/-- The state after `pipealloc` has made `f0` and `f1` the ends of the pipe at `pi`. -/
def Sys.addPipe (s : Sys) (f0 f1 : Fin NFILE) (pi : Pa) (t : Nat) : Sys :=
  let file := update s.file f0
    { s.file f0 with type := .pipe, readable := true, writable := false, pipe := pi }
  { s with
    file := update file f1
      { file f1 with type := .pipe, readable := false, writable := true, pipe := pi },
    pipe := update s.pipe pi ⟨true, true, t⟩,
    pipes := pi :: s.pipes }

theorem isEnd_addPipe (hne : f0 ≠ f1) (h0 : (s.file f0).type = .none)
    (h1 : (s.file f1).type = .none) (pi : Pa) (t : Nat) (g : Fin NFILE) (q : Pa) (w : Bool) :
    (s.addPipe f0 f1 pi t).IsEnd g q w ↔
      (g = (if w = true then f1 else f0) ∧ q = pi) ∨ s.IsEnd g q w := by
  unfold Sys.IsEnd Sys.addPipe
  by_cases hg1 : g = f1
  · subst hg1
    cases w <;> simp [h1, hne.symm, @eq_comm _ pi q]
  by_cases hg0 : g = f0
  · subst hg0
    cases w <;> simp [h0, hne, @eq_comm _ pi q]
  · cases w <;> simp [hg0, hg1]

theorem Files.addPipe (h : Files s extra) {t : Nat} (hne : f0 ≠ f1) (h0 : (s.file f0).type = .none)
    (h1 : (s.file f1).type = .none) (hr0 : (s.file f0).ref ≠ 0) (hr1 : (s.file f1).ref ≠ 0)
    (hpi : pi ∉ s.pipes) : Files (s.addPipe f0 f1 pi t) extra := by
  have hiff := isEnd_addPipe hne h0 h1 pi t
  have hnew : ∀ g w, ¬ s.IsEnd g pi w := fun g w hg => hpi (h.listed g pi w hg)
  have hopen : ∀ w, (update s.pipe pi ⟨true, true, t⟩ pi).isOpen w = true := by
    intro w
    rw [update_self]
    cases w <;> rfl
  -- the two files get a type and keep their counts
  have hcount : ∀ g, ((s.addPipe f0 f1 pi t).file g).ref = (s.file g).ref ∧
      (((s.addPipe f0 f1 pi t).file g).ref = 0 → ((s.addPipe f0 f1 pi t).file g).type = .none) := by
    intro g
    unfold Sys.addPipe
    by_cases hg1 : g = f1
    · subst hg1; simp [hne.symm, hr1]
    by_cases hg0 : g = f0
    · subst hg0; simp [hne, hr0]
    · simpa [hg0, hg1] using h.closed g
  refine ⟨fun g => ?_, fun g => (hcount g).2, fun g q w hg => ?_, fun q hq w => ?_,
    fun f g q w hf hg => ?_, fun q hq => ?_⟩
  · rw [(hcount g).1]; exact h.ref g
  · rcases (hiff g q w).mp hg with ⟨-, hq⟩ | hg
    · rw [hq]; exact mem_cons_self
    · exact mem_cons_of_mem _ (h.listed g q w hg)
  · rw [exists_congr fun g => hiff g q w]
    by_cases hqp : q = pi
    · subst hqp
      exact ⟨fun _ => ⟨_, .inl ⟨rfl, rfl⟩⟩, fun _ => hopen w⟩
    · have hold : q ∈ s.pipes := (mem_cons.mp hq).resolve_left hqp
      show (update s.pipe pi ⟨true, true, t⟩ q).isOpen w = true ↔ _
      rw [update_of_ne hqp, h.ends q hold w]
      exact exists_congr fun g => ⟨.inr, fun hg => hg.resolve_left fun hg => hqp hg.2⟩
  · rcases (hiff f q w).mp hf with ⟨hf, hq⟩ | hf <;> rcases (hiff g q w).mp hg with ⟨hg, hq'⟩ | hg
    · rw [hf, hg]
    · exact absurd (hq ▸ hg) (hnew g w)
    · exact absurd (hq' ▸ hf) (hnew f w)
    · exact h.same f g q w hf hg
  · by_cases hqp : q = pi
    · subst hqp; exact ⟨true, hopen true⟩
    · obtain ⟨w, hw⟩ := h.open_ q ((mem_cons.mp hq).resolve_left hqp)
      exact ⟨w, by show (update s.pipe pi _ q).isOpen w = true; rwa [update_of_ne hqp]⟩

/-- Pages move between the allocator and the call. -/
theorem Owns.moves (h : Owns im s t X) {X' : Multiset Nat} {k : Kmem}
    (hmv : Moves t s.kmem.ledger X k.ledger X') : Owns im { s with kmem := k } t X' := by
  have hrest : ∀ a ∈ s.inUse, k.ledger.tag a = s.kmem.ledger.tag a := fun a => hmv.rest h.nodup
  refine ⟨?_, hmv.mine h.mine, fun p a ha => ?_, fun a ha => ?_⟩
  · show k.ledger.free + (X' + s.inUse) = _
    rw [← add_assoc, hmv.same, add_assoc]
    exact h.total
  · exact (hrest a (mem_inUse_proc ha)).trans (h.procs p a ha)
  · exact (hrest a (mem_inUse_pipe ha)).trans (h.pipes a ha)

theorem Busy.moves (h : Busy im s t X extra) {X' : Multiset Nat} {k : Kmem}
    (hmv : Moves t s.kmem.ledger X k.ledger X') : Busy im { s with kmem := k } t X' extra :=
  ⟨h.owns.moves hmv, { h.files with }⟩

/-- A page in the hands of the call becomes a pipe. -/
theorem Owns.addPipe (f0 f1 : Fin NFILE) (h : Owns im s t (pi ::ₘ X)) :
    Owns im (s.addPipe f0 f1 pi t) t X ∧ pi ∉ s.pipes := by
  have hpi : pi ∉ s.pipes := by
    intro hpi
    have hnd := (nodup_add.mp h.nodup).2.1
    rw [Multiset.cons_add, Multiset.nodup_cons] at hnd
    exact hnd.1 (mem_add.mpr (.inr (mem_inUse_pipe hpi)))
  refine ⟨⟨?_, fun a ha => h.mine a (mem_cons_of_mem ha), h.procs, fun a ha => ?_⟩, hpi⟩
  · rw [← h.total]
    show s.kmem.ledger.free + (X + (∑ p, (s.proc p).pages + (↑(pi :: s.pipes) + ↑s.kern)))
      = s.kmem.ledger.free + (pi ::ₘ X + (∑ p, (s.proc p).pages + (↑s.pipes + ↑s.kern)))
    rw [← cons_coe, cons_add, add_cons, add_cons, cons_add]
  · show s.kmem.ledger.tag a = (update s.pipe pi ⟨true, true, t⟩ a).creator
    by_cases ha' : a = pi
    · subst ha'
      rw [update_self]
      exact h.mine a (mem_cons_self a X)
    · rw [update_of_ne ha']
      exact h.pipes a ((mem_cons.mp ha).resolve_left ha')

theorem succeeds_pipeallocBad (f0 f1 : Option (Fin NFILE))
    (h : Busy im s t X (extra + one f0 + one f1)) (hex : ∀ f, 0 ≤ extra f) :
    Succeeds (pipeallocBad im f0 f1) s fun r s' => r = none ∧ Busy im s' t X extra ∧
      s'.proc = s.proc := by
  have hclose : ∀ (o : Option (Fin NFILE)) (extra : Fin NFILE → Int) (s : Sys),
      Busy im s t X (extra + one o) → (∀ f, 0 ≤ extra f) → ∀ f, o = some f → 1 ≤ (s.file f).ref := by
    rintro o extra s h hex f rfl
    have h1 := h.files.ref f
    have h2 := sum_refs_nonneg s.proc f
    have h3 := hex f
    simp only [Pi.add_apply, one_self] at h1
    omega
  have hswap : extra + one f0 + one f1 = extra + one f1 + one f0 := by
    rw [add_assoc, add_comm (one f0), ← add_assoc]
  rw [hswap] at h
  have hex' : ∀ f, 0 ≤ (extra + one f1) f := fun f => add_nonneg (hex f) (one_nonneg _ f)
  have hsecond : ∀ s1 : Sys, Busy im s1 t X (extra + one f1) → s1.proc = s.proc →
      Succeeds (match f1 with
        | none => pure none
        | some f => do fileclose im f; pure (none : Option (Fin NFILE × Fin NFILE))) s1
        fun r s' => r = none ∧ Busy im s' t X extra ∧ s'.proc = s.proc := by
    intro s1 h1 hp
    cases f1 with
    | none =>
      rw [one_none, add_zero] at h1
      exact Succeeds.pure ⟨rfl, h1, hp⟩
    | some f =>
      refine (succeeds_fileclose h1 (hclose (some f) extra s1 h1 hex f rfl)).seq
        fun _ s' ⟨h', hp'⟩ => Succeeds.pure ⟨rfl, ?_, hp'.trans hp⟩
      rwa [add_sub_cancel_right] at h'
  cases f0 with
  | none =>
    rw [one_none, add_zero] at h
    have := hsecond s h rfl
    cases f1 <;> exact this
  | some f =>
    refine (succeeds_fileclose h (hclose (some f) _ s h hex' f rfl)).seq fun _ s1 ⟨h1, hp⟩ => ?_
    rw [add_sub_cancel_right] at h1
    have := hsecond s1 h1 hp
    cases f1 <;> exact this

/-- Two files that are the ends of a new pipe, or nothing. -/
theorem succeeds_pipealloc (h : Busy im s t X extra) (hex : ∀ f, 0 ≤ extra f) :
    Succeeds (pipealloc im t) s fun r s' =>
      s'.proc = s.proc ∧
      match r with
      | none => Busy im s' t X extra
      | some (f0, f1) => Busy im s' t X (extra + one (some f0) + one (some f1)) := by
  refine (succeeds_filealloc h).seq fun r0 s1 h1 => ?_
  cases r0 with
  | none =>
    obtain rfl : s1 = s := h1
    refine (succeeds_pipeallocBad none none (by simpa using h) hex).mono ?_
    rintro r s' ⟨rfl, h', hp⟩
    exact ⟨hp, h'⟩
  | some f0 =>
    obtain ⟨hr0, ht0, hs1, hb1⟩ := h1
    have hp1 : s1.proc = s.proc := by rw [hs1]
    refine (succeeds_filealloc hb1).seq fun r1 s2 h2 => ?_
    cases r1 with
    | none =>
      obtain rfl : s2 = s1 := h2
      refine (succeeds_pipeallocBad (some f0) none (by simpa using hb1) hex).mono ?_
      rintro r s' ⟨rfl, h', hp⟩
      exact ⟨hp.trans hp1, h'⟩
    | some f1 =>
      obtain ⟨hr1, ht1, hs2, hb2⟩ := h2
      have hp2 : s2.proc = s.proc := by rwa [hs2]
      have hne : f0 ≠ f1 := by
        rintro rfl
        rw [hs1] at hr1
        simp at hr1
      have hf0 : s2.file f0 = { s.file f0 with ref := 1 } := by
        rw [hs2, hs1]
        simp only [update_of_ne hne, update_self]
      have hf1 : s2.file f1 = { s1.file f1 with ref := 1 } := by
        rw [hs2]
        simp only [update_self]
      refine (succeeds_onKmem succeeds_kalloc).seq ?_
      rintro r _ ⟨k, rfl, htaken⟩
      cases r with
      | none =>
        have hsame : Busy im { s2 with kmem := k } t X (extra + one (some f0) + one (some f1)) :=
          hb2.moves (by rw [show k.ledger = s2.kmem.ledger from htaken]; exact Moves.refl _ _ _)
        refine (succeeds_pipeallocBad (some f0) (some f1) hsame hex).mono ?_
        rintro r s' ⟨rfl, h', hp⟩
        exact ⟨hp.trans hp2, h'⟩
      | some pi =>
        have hb3 := hb2.moves (htaken.2.2 X)
        obtain ⟨howns, hpi⟩ := hb3.owns.addPipe f0 f1
        have hfiles := hb3.files.addPipe (t := t) hne (by rwa [hf0])
          (by rwa [hf1]) (by rw [hf0]; exact one_ne_zero)
          (by rw [hf1]; exact one_ne_zero) hpi
        exact ⟨some (f0, f1), Sys.addPipe { s2 with kmem := k } f0 f1 pi t, rfl, hp2,
          ⟨howns, hfiles⟩⟩

/-! ## The system calls on descriptors -/

/-- Nothing but the descriptors of `p` has changed in the process table. -/
def Refiled (p : Fin NPROC) (s s' : Sys) : Prop :=
  ∃ o, s'.proc = update s.proc p { s.proc p with ofile := o }

namespace Refiled

variable {p : Fin NPROC} {s' s'' : Sys}

theorem of_eq (h : s'.proc = s.proc) : Refiled p s s' :=
  ⟨(s.proc p).ofile, by rw [h]; exact (update_eq_self p s.proc).symm⟩

theorem trans (h : Refiled p s s') (h' : Refiled p s' s'') : Refiled p s s'' := by
  obtain ⟨o, ho⟩ := h
  obtain ⟨o', ho'⟩ := h'
  refine ⟨o', ?_⟩
  rw [ho', ho]
  simp only [update_self, update_idem]

theorem procOk (h : Refiled p s s') (hp : (s.proc p).state = .runnable)
    (hok : ∀ q, ProcOk im (s.proc q)) (q : Fin NPROC) : ProcOk im (s'.proc q) := by
  obtain ⟨o, ho⟩ := h
  rw [ho]
  by_cases hq : q = p
  · subst hq
    rw [update_self]
    cases hok q with
    | unused hs => rw [hs] at hp; cases hp
    | live _ htf hpt hsh hsz => exact .live (.inl hp) htf hpt hsh hsz
  · rw [update_of_ne hq]; exact hok q

end Refiled

theorem Inv.busy (h : Inv im s) (t : Nat) : Busy im s t 0 0 := ⟨h.owns t, h.files⟩

theorem Busy.inv (h : Busy im s t 0 0) (hok : ∀ p, ProcOk im (s.proc p)) : Inv im s :=
  ⟨h.owns.retag, hok, h.files⟩

/-- Of a call by process `p`. -/
theorem Busy.inv_refiled {s0 : Sys} (h : Busy im s t 0 0) (h0 : Inv im s0)
    (hp : (s0.proc p).state = .runnable) (hr : Refiled p s0 s) : Inv im s :=
  h.inv (hr.procOk hp h0.proc)

theorem succeeds_argfd {fd : Int} : Succeeds (argfd p fd) s fun r s' =>
    s' = s ∧ ∀ fd f, r = some (fd, f) → (s.proc p).ofile fd = some f := by
  refine Succeeds.read ?_
  split
  · exact Succeeds.pure ⟨rfl, fun _ _ h => by cases h⟩
  · rename_i hfd
    simp only
    cases hf : (s.proc p).ofile ⟨fd.toNat, by omega⟩ with
    | none => exact Succeeds.pure ⟨rfl, fun _ _ h => by cases h⟩
    | some f => exact Succeeds.pure ⟨rfl, fun _ _ h => by cases h; exact hf⟩

/-- An open descriptor keeps its file's count positive. -/
theorem Files.ref_pos (h : Files s extra) {fd : Fin NOFILE} (hf : (s.proc p).ofile fd = some f)
    (hex : 0 ≤ extra f) : 1 ≤ (s.file f).ref := by
  have h1 := h.ref f
  have h2 := sum_refs_pos hf
  omega

theorem Files.ref_pos_of_extra (h : Files s extra) (hex : 1 ≤ extra f) : 1 ≤ (s.file f).ref := by
  have h1 := h.ref f
  have h2 := sum_refs_nonneg s.proc f
  omega

theorem succeeds_sysClose {fd : Int} (h : Inv im s) (hp : (s.proc p).state = .runnable) :
    Succeeds (sysClose im p fd) s fun _ s' => Inv im s' := by
  refine succeeds_argfd.seq fun r s1 ⟨hs1, hr⟩ => ?_
  subst hs1
  cases r with
  | none => exact Succeeds.pure h
  | some x =>
    obtain ⟨fd, f⟩ := x
    have hfd := hr fd f rfl
    refine (succeeds_setOfile (h.busy 0) hfd).seq fun _ s2 ⟨hb2, _, hp2⟩ => ?_
    rw [one_none, sub_zero, zero_add] at hb2
    refine (succeeds_fileclose hb2 (hb2.files.ref_pos_of_extra (by rw [one_self]))).seq
      fun _ s3 ⟨hb3, hp3⟩ => Succeeds.pure ?_
    rw [sub_self] at hb3
    exact hb3.inv_refiled h hp (Refiled.trans ⟨_, hp2⟩ (.of_eq hp3))

theorem succeeds_sysDup {fd : Int} (h : Inv im s) (hp : (s.proc p).state = .runnable) :
    Succeeds (sysDup p fd) s fun _ s' => Inv im s' := by
  refine succeeds_argfd.seq fun r s1 ⟨hs1, hr⟩ => ?_
  subst hs1
  cases r with
  | none => exact Succeeds.pure h
  | some x =>
    obtain ⟨fd, f⟩ := x
    have hfd := hr fd f rfl
    refine (succeeds_fdalloc (h.busy 0)).seq fun r s2 h2 => ?_
    cases r with
    | none =>
      obtain rfl : s2 = s1 := h2
      exact Succeeds.pure h
    | some fd' =>
      obtain ⟨hfree, hb2, -, hp2⟩ := h2
      -- two descriptors refer to the file now, and the count is one behind
      have href : 1 ≤ (s2.file f).ref := by
        have h1 := hb2.files.ref f
        have h2 : 2 ≤ ∑ q, (s2.proc q).refs f := by
          rw [hp2]
          have hu := refs_update (s1.proc p) fd' (some f) f
          have hs := sum_update_add (fun x : Proc => x.refs f) s1.proc p
            { s1.proc p with ofile := update (s1.proc p).ofile fd' (some f) }
          have hpos := sum_refs_pos hfd
          rw [hfree, one_none, one_self] at hu
          simp only [Pi.zero_apply] at *
          omega
        simp only [Pi.sub_apply, Pi.zero_apply, one_self] at h1
        omega
      refine (succeeds_filedup hb2 href).seq fun _ s3 ⟨hb3, hp3⟩ => Succeeds.pure ?_
      rw [sub_add_cancel] at hb3
      exact hb3.inv_refiled h hp (Refiled.trans ⟨_, hp2⟩ (.of_eq hp3))

/-- An open file that is no pipe gets a type. -/
theorem Files.setType (h : Files s extra) {x : File} (hr : x.ref = (s.file f).ref)
    (hpos : x.ref ≠ 0) (hold : (s.file f).type ≠ .pipe) (hnew : x.type ≠ .pipe) :
    Files { s with file := update s.file f x } extra := by
  refine h.setFile (fun _ _ => ⟨fun h => absurd h.1 hnew, fun h => absurd h.1 hold⟩)
    (fun h => absurd h hpos) ?_
  rw [hr, sub_self, Pi.single_zero, add_zero]

theorem succeeds_sysOpen {device readable writable : Bool} (h : Inv im s)
    (hp : (s.proc p).state = .runnable) :
    Succeeds (sysOpen im p device readable writable) s fun _ s' => Inv im s' := by
  refine (succeeds_filealloc (h.busy 0)).seq fun r s1 h1 => ?_
  cases r with
  | none =>
    obtain rfl : s1 = s := h1
    exact Succeeds.pure h
  | some f =>
    obtain ⟨-, htype, hs1, hb1⟩ := h1
    have hp1 : s1.proc = s.proc := by rw [hs1]
    have hf1 : s1.file f = { s.file f with ref := 1 } := by
      rw [hs1]; exact update_self ..
    rw [zero_add] at hb1
    refine (succeeds_fdalloc hb1).seq fun r s2 h2 => ?_
    cases r with
    | none =>
      obtain rfl : s2 = s1 := h2
      refine (succeeds_fileclose hb1 (by rw [hf1])).seq fun _ s3 ⟨hb3, hp3⟩ => Succeeds.pure ?_
      rw [sub_self] at hb3
      exact hb3.inv_refiled h hp (.of_eq (hp3.trans hp1))
    | some fd =>
      obtain ⟨-, hb2, hf2, hp2⟩ := h2
      rw [sub_self] at hb2
      refine Succeeds.seq (Succeeds.update ?_)
        fun _ _ h' => Succeeds.pure h'
      have hr2 : Refiled p s s2 := Refiled.trans (.of_eq hp1) ⟨_, hp2⟩
      refine (hb2.setFile (hb2.files.setType (x := { s2.file f with
        type := if device = true then .device else .inode, readable, writable })
        rfl ?_ ?_ ?_)).inv_refiled h hp hr2
      · rw [hf2, hf1]; exact one_ne_zero
      · rw [hf2, hf1, htype]; exact nofun
      · cases device <;> exact nofun

/-- The exits of `sys_pipe` that close both ends. -/
theorem succeeds_closeBoth {rf wf : Fin NFILE} (h : Busy im s t X (one (some rf) + one (some wf))) :
    Succeeds (do fileclose im rf; fileclose im wf; return (-1 : Int)) s fun _ s' =>
      Busy im s' t X 0 ∧ s'.proc = s.proc := by
  have h1 : 1 ≤ (one (some rf) + one (some wf)) rf := by
    have := one_nonneg (some wf) rf
    simp only [Pi.add_apply, one_self]
    omega
  refine (succeeds_fileclose h (h.files.ref_pos_of_extra h1)).seq fun _ s1 ⟨hb1, hp1⟩ => ?_
  rw [add_sub_cancel_left] at hb1
  refine (succeeds_fileclose hb1 (hb1.files.ref_pos_of_extra (by rw [one_self]))).seq
    fun _ s2 ⟨hb2, hp2⟩ => Succeeds.pure ⟨?_, hp2.trans hp1⟩
  rwa [sub_self] at hb2

theorem succeeds_sysPipe {fdarray : Nat} (h : Inv im s) (hp : (s.proc p).state = .runnable) :
    Succeeds (sysPipe im p fdarray) s fun _ s' => Inv im s' := by
  refine Succeeds.read ?_
  refine (succeeds_pipealloc (h.busy _) fun _ => le_rfl).seq fun r s1 ⟨hp1, h1⟩ => ?_
  cases r with
  | none => exact Succeeds.pure (Busy.inv_refiled h1 h hp (.of_eq hp1))
  | some x =>
    obtain ⟨rf, wf⟩ := x
    have hb1 : Busy im s1 (s.proc p).pid 0 (one (some rf) + one (some wf)) := by
      simpa only [zero_add] using h1
    refine (succeeds_fdalloc hb1).seq fun r s2 h2 => ?_
    cases r with
    | none =>
      obtain rfl : s2 = s1 := h2
      exact (succeeds_closeBoth hb1).mono fun _ s' ⟨hb, hp'⟩ =>
        hb.inv_refiled h hp (.of_eq (hp'.trans hp1))
    | some fd0 =>
      obtain ⟨-, hb2, -, hp2⟩ := h2
      rw [add_sub_cancel_left] at hb2
      have hr2 : Refiled p s s2 := Refiled.trans (.of_eq hp1) ⟨_, hp2⟩
      have hfd0 : (s2.proc p).ofile fd0 = some rf := by
        rw [hp2]; simp only [update_self]
      refine (succeeds_fdalloc hb2).seq fun r s3 h3 => ?_
      cases r with
      | none =>
        obtain rfl : s3 = s2 := h3
        refine (succeeds_setOfile hb2 hfd0).seq fun _ s4 ⟨hb4, _, hp4⟩ => ?_
        rw [one_none, sub_zero, add_comm] at hb4
        exact (succeeds_closeBoth hb4).mono fun _ s' ⟨hb, hp'⟩ =>
          hb.inv_refiled h hp (hr2.trans (Refiled.trans ⟨_, hp4⟩ (.of_eq hp')))
      | some fd1 =>
        obtain ⟨hfree, hb3, -, hp3⟩ := h3
        rw [sub_self] at hb3
        have hr3 : Refiled p s s3 := hr2.trans ⟨_, hp3⟩
        have hne : fd0 ≠ fd1 := by
          rintro rfl
          rw [hfd0] at hfree; cases hfree
        have hfd0' : (s3.proc p).ofile fd0 = some rf := by
          rw [hp3]
          simp only [update_self, update_of_ne hne]
          exact hfd0
        simp only
        split
        · refine (succeeds_setOfile hb3 hfd0').seq fun _ s4 ⟨hb4, _, hp4⟩ => ?_
          have hfd1 : (s4.proc p).ofile fd1 = some wf := by
            rw [hp4, hp3]
            simp only [update_self, update_of_ne hne.symm]
          refine (succeeds_setOfile hb4 hfd1).seq fun _ s5 ⟨hb5, _, hp5⟩ => ?_
          rw [one_none, sub_zero, sub_zero, zero_add] at hb5
          exact (succeeds_closeBoth hb5).mono fun _ s' ⟨hb, hp'⟩ =>
            hb.inv_refiled h hp (hr3.trans (Refiled.trans ⟨_, hp4⟩
              (Refiled.trans ⟨_, hp5⟩ (.of_eq hp'))))
        · exact Succeeds.pure (hb3.inv_refiled h hp hr3)

end Xv6.Mem
