/-
# `Xv6.Exec.Sbrk` — what `sbrk` did and what it says it did

`growproc` adds a signed `n` to a `uint64`.  For a shrink by more than the size the sum
wraps to a large number, which `uvmdealloc` takes for a size there is nothing to do for:
it returns the old size, and `sbrk` reports success.

**Proved here.**

  * `sbrk` does what it says exactly if `sz + n` is a size (`sbrk_reports_iff`)
  * a process of one page that gives back two (`sbrk_wraps`)
-/
import Xv6.Exec.Spec

namespace Xv6.Exec

open Machine Xv6.Mem Xv6.Vm

/-! ## The code -/

/-- `sz + n`, of a `uint64` and an `int`. -/
def plus (sz : Nat) (n : Int32) : Nat := ((sz + n.toInt) % 2 ^ 64).toNat

def setProc (f : Proc → Proc) : Call Unit := modify fun s => { s with proc := f s.proc }

def growproc (im : Image) (n : Int32) : Call Int := do
  let p := (← get).proc
  if 0 < n.toInt then do
    let (sz, pt) ← onRam (uvmalloc im.kend p.pid p.pagetable p.sz (plus p.sz n)
      ⟨false, true, false, false⟩)
    setProc fun p => { p with pagetable := pt }
    if sz = 0 then return -1
    else do
      setProc fun p => { p with sz }
      return 0
  else if n.toInt < 0 then do
    let (sz, pt) ← onRam (onKmem (uvmdealloc im.kend p.pagetable p.sz (plus p.sz n)))
    setProc fun p => { p with pagetable := pt, sz }
    return 0
  else return 0

def sysSbrk (im : Image) (n : Int32) : Call Int := do
  let addr := (← get).proc.sz
  let r ← growproc im n
  if r < 0 then return -1 else return addr

/-! ## What is asked of it -/

/-- The size is `sz + n`, and the user pages are those below it; new ones are zero. -/
structure Resized (s : Sys) (n : Int32) (s' : Sys) : Prop where
  size : (s'.proc.sz : Int) = s.proc.sz + n.toInt
  kept : ∀ i, (i < npages s'.proc.sz ↔ i < npages s.proc.sz) →
    s'.proc.pagetable.map i = s.proc.pagetable.map i
  gone : ∀ i, npages s'.proc.sz ≤ i → i < npages s.proc.sz →
    s'.proc.pagetable.map i = Pte.zero
  new : ∀ i, npages s.proc.sz ≤ i → i < npages s'.proc.sz →
    (∃ pa, s'.proc.pagetable.map i = (Perm.mk true true false true).pte pa) ∧
    ∀ j < PGSIZE, s'.ram.mem ((s'.proc.pagetable.map i).pa + j) = 0

/-- The old size and a process that has grown or shrunk by `n`, or -1 and the one there was. -/
def SbrkSpec (s : Sys) (n : Int32) (r : Int) (s' : Sys) : Prop :=
  r = s.proc.sz ∧ Resized s n s' ∨
  r = -1 ∧ s'.proc.sz = s.proc.sz ∧ s'.proc.pagetable.map = s.proc.pagetable.map

/-! ## The calls -/

section
variable {im : Image} {s : Sys} {g : Option Nat} {n : Int32}

theorem plus_of_nonneg {sz : Nat} (hsz : sz ≤ TRAPFRAME) (h : 0 ≤ sz + n.toInt) :
    (plus sz n : Int) = sz + n.toInt := by
  have hsz : sz ≤ 274877898752 := hsz
  have hn := n.toInt_lt
  unfold plus
  omega

theorem plus_of_neg {sz : Nat} (h : sz + n.toInt < 0) : sz ≤ plus sz n := by
  have hn := n.le_toInt
  unfold plus
  omega

/-- `n > 0`. -/
theorem succeeds_sbrk_grow
    (h : Space im s.ram.kmem s.proc.pagetable s.proc.trapframe s.proc.sz g)
    (hnd : (s.ram.kmem.ledger.free + s.proc.pagetable.tables).Nodup) (hn : 0 < n.toInt) :
    Succeeds (sysSbrk im n) s (SbrkSpec s n) := by
  have hplus := plus_of_nonneg (n := n) h.size (by omega)
  refine Succeeds.read (Succeeds.seq (Q := fun r s' =>
    r = 0 ∧ Resized s n s' ∨ r = -1 ∧ s'.proc.sz = s.proc.sz ∧
      s'.proc.pagetable.map = s.proc.pagetable.map) (Succeeds.read ?_) ?_)
  · simp only [hn, if_true]
    refine (succeeds_onRam (Exec.succeeds_uvmalloc (by decide) h.npages_le
      (fun i => h.shape.zero_above) h.ok.left hnd)).seq ?_
    rintro ⟨sz, pt⟩ _ ⟨r, rfl, halloc, -, hzero⟩
    generalize hk : r.kmem = k at halloc
    cases halloc with
    | same hlt => omega
    | fail hmap => exact Succeeds.pure (.inr ⟨rfl, rfl, hmap⟩)
    | done hle hmax hadds =>
      simp only [show ¬ plus s.proc.sz n = 0 by omega, if_false]
      have hmono := npages_mono hmax hle
      refine Succeeds.write (Succeeds.pure (.inl ⟨rfl, hplus, fun i hi => ?_, fun i h1 h2 => ?_,
        fun i h1 h2 => ⟨?_, hzero i h1 h2⟩⟩))
      · have hi : i < npages (plus s.proc.sz n) ↔ i < npages s.proc.sz := hi
        exact hadds.old i (by omega)
      · have h1 : npages (plus s.proc.sz n) ≤ i := h1
        omega
      · have h2 : i < npages (plus s.proc.sz n) := h2
        exact hadds.new i h1 (by omega)
  · rintro r s' (⟨rfl, hres⟩ | ⟨rfl, hsame⟩)
    · exact Succeeds.pure (.inl ⟨rfl, hres⟩)
    · exact Succeeds.pure (.inr ⟨rfl, hsame⟩)

/-- `n < 0`: the old size is returned whatever happened. -/
theorem succeeds_sbrk_shrink
    (h : Space im s.ram.kmem s.proc.pagetable s.proc.trapframe s.proc.sz g) (hn : n.toInt < 0) :
    Succeeds (sysSbrk im n) s fun r s' => r = s.proc.sz ∧
      s'.proc.sz = min s.proc.sz (plus s.proc.sz n) ∧
      s'.proc.pagetable.map = clear s.proc.pagetable.map (npages s'.proc.sz)
        (npages s.proc.sz - npages s'.proc.sz) := by
  refine Succeeds.read (Succeeds.seq (Q := fun r s' => r = 0 ∧
    s'.proc.sz = min s.proc.sz (plus s.proc.sz n) ∧
    s'.proc.pagetable.map = clear s.proc.pagetable.map (npages s'.proc.sz)
      (npages s.proc.sz - npages s'.proc.sz)) (Succeeds.read ?_) ?_)
  · simp only [show ¬ 0 < n.toInt by omega, hn, if_false, if_true]
    refine (succeeds_onRam (succeeds_onKmem (succeeds_uvmdealloc (size_le_maxva h.size)
      (fun i _ hi => (h.shape.user i hi).1)
      fun i _ hi => h.ok.right.held (mem_frames (Nat.zero_le i) (by omega))))).seq ?_
    rintro ⟨sz, pt⟩ _ ⟨r, rfl, -, hmin, -, hmap, -⟩
    exact Succeeds.write (Succeeds.pure ⟨rfl, hmin, hmap⟩)
  · rintro r s' ⟨rfl, hs'⟩
    exact Succeeds.pure ⟨rfl, hs'⟩

theorem SbrkSpec.zero (hn : n.toInt = 0) : SbrkSpec s n s.proc.sz s :=
  .inl ⟨rfl, by omega, fun _ _ => rfl, fun i h1 h2 => by omega, fun i h1 h2 => by omega⟩

/-- A shrink to `sz + n`. -/
theorem SbrkSpec.shrink {s' : Sys} (hmax : s.proc.sz ≤ MAXVA) (hle : s'.proc.sz ≤ s.proc.sz)
    (hsz : (s'.proc.sz : Int) = s.proc.sz + n.toInt)
    (hmap : s'.proc.pagetable.map = clear s.proc.pagetable.map (npages s'.proc.sz)
      (npages s.proc.sz - npages s'.proc.sz)) : SbrkSpec s n s.proc.sz s' := by
  have hmono := npages_mono hmax hle
  refine .inl ⟨rfl, hsz, fun i hi => ?_, fun i h1 h2 => ?_, fun i h1 h2 => by omega⟩
  · rw [hmap]
    exact if_neg (by omega)
  · rw [hmap]
    exact if_pos ⟨h1, by omega⟩

/-- `sbrk` does what is asked of it, or the sum has wrapped; then nothing has changed and
it returns the old size. -/
theorem succeeds_sysSbrk
    (h : Space im s.ram.kmem s.proc.pagetable s.proc.trapframe s.proc.sz g)
    (hnd : (s.ram.kmem.ledger.free + s.proc.pagetable.tables).Nodup) (n : Int32) :
    Succeeds (sysSbrk im n) s fun r s' =>
      if 0 ≤ s.proc.sz + n.toInt then SbrkSpec s n r s'
      else r = s.proc.sz ∧ s'.proc.sz = s.proc.sz := by
  rcases lt_trichotomy n.toInt 0 with hn | hn | hn
  · refine (succeeds_sbrk_shrink h hn).mono fun r s' ⟨hr, hmin, hmap⟩ => ?_
    split
    · rename_i h0
      have hplus := plus_of_nonneg h.size h0
      rw [hr]
      exact .shrink (size_le_maxva h.size) (by omega) (by omega) hmap
    · rename_i h0
      have hplus : s.proc.sz ≤ plus s.proc.sz n := plus_of_neg (by omega)
      exact ⟨hr, by omega⟩
  · refine Succeeds.read (Succeeds.seq (Q := fun r s' => r = 0 ∧ s' = s) (Succeeds.read ?_) ?_)
    · simp only [hn, lt_irrefl, if_false]
      exact Succeeds.pure ⟨rfl, rfl⟩
    · rintro r _ ⟨rfl, rfl⟩
      refine Succeeds.pure ?_
      rw [if_pos (by omega)]
      exact .zero hn
  · refine (succeeds_sbrk_grow h hnd hn).mono fun r s' hs' => ?_
    rwa [if_pos (by omega)]

/-! ## The result -/

/-- `sbrk` ends without a panic, and does what it says exactly if `sz + n` is not negative. -/
theorem sbrk_reports_iff (im : Image) (s : Sys) (g : Option Nat)
    (h : Space im s.ram.kmem s.proc.pagetable s.proc.trapframe s.proc.sz g)
    (hnd : (s.ram.kmem.ledger.free + s.proc.pagetable.tables).Nodup) (n : Int32) :
    ∃ r s', sysSbrk im n s = .ok (r, s') ∧
      (SbrkSpec s n r s' ↔ 0 ≤ (s.proc.sz : Int) + n.toInt) := by
  obtain ⟨r, s', heq, hs'⟩ := succeeds_sysSbrk h hnd n
  refine ⟨r, s', heq, fun hspec => ?_, fun h0 => ?_⟩
  · by_contra h0
    rw [if_neg h0] at hs'
    rcases hspec with ⟨-, hres⟩ | ⟨hr, -⟩
    · have := hres.size
      omega
    · omega
  · rwa [if_pos h0] at hs'

theorem Ready.nodup_tables (h : Ready im s) :
    (s.ram.kmem.ledger.free + s.proc.pagetable.tables).Nodup := by
  have := h.nodup
  unfold owned at this
  rw [← add_assoc] at this
  exact (Multiset.nodup_add.mp this).1

end

/-- The first process, which has one page. -/
theorem booted_size : ∃ s, Ready smallImage s ∧ s.proc.sz = 4096 := by
  have h : (atCall booted.sys 0).map (·.proc.sz) = some 4096 := by decide +kernel
  obtain ⟨s, hs, hsz⟩ := Option.map_eq_some_iff.mp h
  exact ⟨s, ready_booted hs, hsz⟩

/-- It grows by a page, or is told that it cannot. -/
theorem sbrk_reports_page : ∃ s r s', s.proc.sz = 4096 ∧ sysSbrk smallImage 4096 s = .ok (r, s') ∧
    SbrkSpec s 4096 r s' := by
  obtain ⟨s, hr, hsz⟩ := booted_size
  obtain ⟨g, hsp⟩ := hr.space
  obtain ⟨r, s', heq, hiff⟩ := sbrk_reports_iff smallImage s g hsp hr.nodup_tables 4096
  exact ⟨s, r, s', hsz, heq, hiff.mpr (by rw [hsz]; decide)⟩

/-- It gives back two pages: `sbrk` returns 4096, and the size is what it was. -/
theorem sbrk_wraps : ¬ ∀ (im : Image) (s : Sys), Ready im s → ∀ (n : Int32) r s',
    sysSbrk im n s = .ok (r, s') → SbrkSpec s n r s' := by
  intro hall
  obtain ⟨s, hr, hsz⟩ := booted_size
  obtain ⟨g, hsp⟩ := hr.space
  obtain ⟨r, s', heq, hs'⟩ := succeeds_sysSbrk hsp hr.nodup_tables (-8192)
  rw [hsz, if_neg (by decide)] at hs'
  rcases hall smallImage s hr _ r s' heq with ⟨-, hres⟩ | ⟨hneg, -⟩
  · have := hres.size
    rw [hs'.2, hsz] at this
    exact absurd this (by decide)
  · rw [hs'.1] at hneg
    exact absurd hneg (by decide)

end Xv6.Exec
