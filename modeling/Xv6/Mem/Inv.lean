/-
# `Xv6.Mem.Inv` — who owns a page, and who holds a file

The invariant of the system between calls, in three parts: every page is free or has
one owner (`Owns`), every process is unused or has an address space of the right
shape (`ProcOk`), and the reference counts of open files and the two ends of every
pipe agree with the descriptors (`Files`).

A call in progress holds pages and file references that belong to no process yet, or
no more.  `Owns` and `Files` have them as a parameter, so that they are true after
every line of a call, and with nothing in hand between calls.
-/
import Xv6.Mem.ExecSpec
import Xv6.Mem.Proc
import Mathlib.Algebra.Group.Pi.Lemmas

namespace Xv6.Mem

open Machine Function Multiset

/-! ## Pages -/

/-- The pages of a process: its trapframe, its page tables and its user pages. -/
def Proc.pages (x : Proc) : Multiset Nat :=
  x.trapframe.elim 0 (fun tf => {tf}) + x.pagetable.elim 0 fun pt => owned pt x.sz

/-- The pages that are in use between calls. -/
def Sys.inUse (s : Sys) : Multiset Nat := ∑ p, (s.proc p).pages + (s.pipes + s.kern)

/-- Every page is free, in use, or in the hands of the running call, which works for
`t` and holds `X`. -/
structure Owns (im : Image) (s : Sys) (t : Nat) (X : Multiset Nat) : Prop where
  total : s.kmem.ledger.free + (X + s.inUse) = pages im.kend
  mine : ∀ a ∈ X, s.kmem.ledger.tag a = t
  procs : ∀ p, ∀ a ∈ (s.proc p).pages, s.kmem.ledger.tag a = (s.proc p).pid
  pipes : ∀ a ∈ s.pipes, s.kmem.ledger.tag a = (s.pipe a).creator

/-! ## Processes -/

/-- A slot of the process table between calls. -/
inductive ProcOk (im : Image) (x : Proc) : Prop
  | unused (state : x.state = .unused) (trapframe : x.trapframe = none)
      (pagetable : x.pagetable = none) (sz : x.sz = 0) (guard : x.guard = none)
      (ofile : ∀ fd, x.ofile fd = none)
  | live {tf : Nat} {pt : Pgtbl}
      (state : x.state = .runnable ∨ x.state = .zombie ∧ ∀ fd, x.ofile fd = none)
      (trapframe : x.trapframe = some tf) (pagetable : x.pagetable = some pt)
      (shape : Shape im pt tf (npages x.sz) x.guard) (size : x.sz ≤ TRAPFRAME)

/-! ## Files -/

/-- One reference to a file, or none. -/
def one (o : Option (Fin NFILE)) (f : Fin NFILE) : Int := if o = some f then 1 else 0

/-- The descriptors of a process that refer to `f`. -/
def Proc.refs (x : Proc) (f : Fin NFILE) : Int := ∑ fd, one (x.ofile fd) f

/-- `f` is the read end or the write end (`w`) of the pipe at `pi`. -/
def Sys.IsEnd (s : Sys) (f : Fin NFILE) (pi : Pa) (w : Bool) : Prop :=
  (s.file f).type = .pipe ∧ (s.file f).pipe = pi ∧ (s.file f).writable = w

def Pipe.isOpen (x : Pipe) (w : Bool) : Bool := if w then x.writeopen else x.readopen

/-- `extra` counts the references that the running call holds. -/
structure Files (s : Sys) (extra : Fin NFILE → Int) : Prop where
  ref : ∀ f, ((s.file f).ref : Int) = ∑ p, (s.proc p).refs f + extra f
  closed : ∀ f, (s.file f).ref = 0 → (s.file f).type = .none
  listed : ∀ f pi w, s.IsEnd f pi w → pi ∈ s.pipes
  ends : ∀ pi ∈ s.pipes, ∀ w, (s.pipe pi).isOpen w = true ↔ ∃ f, s.IsEnd f pi w
  same : ∀ f g pi w, s.IsEnd f pi w → s.IsEnd g pi w → f = g
  open_ : ∀ pi ∈ s.pipes, ∃ w, (s.pipe pi).isOpen w = true

/-- Between calls. -/
structure Inv (im : Image) (s : Sys) : Prop where
  owns : ∀ t, Owns im s t 0
  proc : ∀ p, ProcOk im (s.proc p)
  files : Files s 0

/-! ## The allocator's pages -/

theorem pages_nodup (e : Nat) : (pages e).Nodup := by
  refine List.Nodup.map (fun i j h => ?_) List.nodup_range
  exact Nat.eq_of_mul_eq_mul_right (by decide) (Nat.add_left_cancel h)

variable {a : Nat} {p : Fin NPROC}

theorem pageOk_of_mem (im : Image) (h : a ∈ pages im.kend) : PageOk im.kend a := by
  obtain ⟨i, hi, rfl⟩ := List.mem_map.mp h
  generalize hup : PGROUNDUP im.kend = u at hi
  have hi : i < (2281701376 - u) / 4096 := List.mem_range.mp hi
  have hfits : im.kend ≤ 2281701376 := im.fits
  have hup : (im.kend + 4096 - 1) % 18446744073709551616 / 4096 * 4096 = u := hup
  refine ⟨?_, ?_, ?_⟩
  · show (u + i * 4096) % 4096 = 0
    omega
  · show im.kend ≤ u + i * 4096
    omega
  · show u + i * 4096 < 2281701376
    omega

theorem length_pages (e : Nat) : (pages e).length ≤ TFPAGE := by
  unfold pages
  rw [List.length_map, List.length_range]
  show (2281701376 - PGROUNDUP e) / 4096 ≤ 67108862
  omega

/-! ## Moving pages -/

variable {im : Image} {s : Sys} {t : Nat} {X X' : Multiset Nat}

/-- The same system with another record in slot `p` of the process table. -/
abbrev Sys.withProc (s : Sys) (k : Kmem) (p : Fin NPROC) (x : Proc) : Sys :=
  { s with kmem := k, proc := Function.update s.proc p x }

/-- What is in use besides the pages of one process. -/
def Sys.others (s : Sys) (p : Fin NPROC) : Multiset Nat :=
  ∑ q ∈ Finset.univ.erase p, (s.proc q).pages + (s.pipes + s.kern)

theorem inUse_eq (s : Sys) (p : Fin NPROC) : s.inUse = (s.proc p).pages + s.others p := by
  unfold Sys.inUse Sys.others
  rw [← Finset.add_sum_erase Finset.univ (fun q => (s.proc q).pages) (Finset.mem_univ p), add_assoc]

theorem others_withProc (s : Sys) (k : Kmem) (p : Fin NPROC) (x : Proc) :
    (s.withProc k p x).others p = s.others p := by
  unfold Sys.others
  congr 1
  refine Finset.sum_congr rfl fun q hq => ?_
  simp only [update_of_ne (Finset.ne_of_mem_erase hq)]

theorem mem_others_proc {q : Fin NPROC} (hq : q ≠ p) (ha : a ∈ (s.proc q).pages) : a ∈ s.others p :=
  mem_add.mpr (.inl (mem_sum.mpr
    ⟨q, Finset.mem_erase.mpr ⟨hq, Finset.mem_univ q⟩, ha⟩))

theorem mem_others_pipe (ha : a ∈ s.pipes) : a ∈ s.others p :=
  mem_add.mpr (.inr (mem_add.mpr (.inl ha)))

namespace Owns

theorem nodup (h : Owns im s t X) : (s.kmem.ledger.free + (X + s.inUse)).Nodup := by
  rw [h.total]
  exact pages_nodup _

variable {Y R : Multiset Nat} {x : Proc}

/-- Part of what is in hand and in use. -/
theorem allOk (h : Owns im s t X) (hY : X + s.inUse = Y + R) : AllOk im.kend s.kmem Y := by
  intro a ha
  refine pageOk_of_mem im ?_
  have htot := h.total
  rw [hY, ← add_assoc] at htot
  have : a ∈ (pages im.kend : Multiset Nat) := by
    rw [← htot]
    exact mem_add.mpr (.inl ha)
  exact this

theorem room (h : Owns im s t X) (hY : X + s.inUse = Y + R) :
    s.kmem.freelist.length + Y.card ≤ TFPAGE := by
  have htot := congrArg Multiset.card h.total
  rw [hY] at htot
  simp only [card_add, Kmem.ledger, coe_card] at htot
  have := length_pages im.kend
  omega

/-- With nothing in hand nobody is working. -/
theorem retag (h : Owns im s t 0) (t' : Nat) : Owns im s t' 0 :=
  ⟨h.total, fun a ha => absurd ha (notMem_zero a), h.procs, h.pipes⟩

/-- Pages move between the allocator, the call and the process it works for. -/
theorem proc (h : Owns im s t X) {k : Kmem}
    (hold : (s.proc p).pages = 0 ∨ (s.proc p).pid = t) (hnew : x.pages = 0 ∨ x.pid = t)
    (hmv : Moves t s.kmem.ledger (X + (s.proc p).pages) k.ledger (X' + x.pages)) :
    Owns im (s.withProc k p x) t X' := by
  have hnd : (s.kmem.ledger.free + ((X + (s.proc p).pages) + s.others p)).Nodup := by
    have := h.nodup
    rwa [inUse_eq s p, ← add_assoc X] at this
  have hmine : ∀ a ∈ X' + x.pages, k.ledger.tag a = t := by
    refine hmv.mine fun a ha => ?_
    rcases mem_add.mp ha with ha | ha
    · exact h.mine a ha
    · rcases hold with h0 | hpid
      · rw [h0] at ha; exact absurd ha (notMem_zero a)
      · rw [h.procs p a ha, hpid]
  refine ⟨?_, fun a ha => hmine a (mem_add.mpr (.inl ha)), fun q a ha => ?_,
    fun a ha => ?_⟩
  · rw [inUse_eq (s.withProc k p x) p, others_withProc]
    simp only [update_self]
    calc k.ledger.free + (X' + (x.pages + s.others p))
        = k.ledger.free + (X' + x.pages) + s.others p := by simp only [add_assoc]
      _ = s.kmem.ledger.free + (X + (s.proc p).pages) + s.others p := by rw [hmv.same]
      _ = s.kmem.ledger.free + (X + s.inUse) := by simp only [inUse_eq s p, add_assoc]
      _ = pages im.kend := h.total
  · by_cases hq : q = p
    · subst hq
      simp only [update_self] at ha ⊢
      rcases hnew with h0 | hpid
      · rw [h0] at ha; exact absurd ha (notMem_zero a)
      · rw [hpid]; exact hmine a (mem_add.mpr (.inr ha))
    · simp only [update_of_ne hq] at ha ⊢
      exact (hmv.rest hnd (mem_others_proc hq ha)).trans (h.procs q a ha)
  · exact (hmv.rest hnd (mem_others_pipe ha)).trans (h.pipes a ha)

/-- Nothing moves. -/
theorem setProc (h : Owns im s t X) (hp : x.pages = (s.proc p).pages)
    (hpid : x.pid = (s.proc p).pid) : Owns im (s.withProc s.kmem p x) t X := by
  have hproc : ∀ q, ((s.withProc s.kmem p x).proc q).pages = (s.proc q).pages ∧
      ((s.withProc s.kmem p x).proc q).pid = (s.proc q).pid := by
    intro q
    by_cases hq : q = p
    · subst hq; simp only [update_self]; exact ⟨hp, hpid⟩
    · simp only [update_of_ne hq, and_self]
  refine ⟨?_, h.mine, fun q a ha => ?_, h.pipes⟩
  · rw [← h.total]
    unfold Sys.inUse
    rw [Finset.sum_congr rfl fun q _ => (hproc q).1]
  · rw [(hproc q).1] at ha
    rw [(hproc q).2]
    exact h.procs q a ha

end Owns

end Xv6.Mem
