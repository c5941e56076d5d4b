/-
# `Xv6.Virtio.Steps` — what one step of the driver or the device does

`Next s a t` lists the transitions, one constructor for each; the descriptor
functions are described once (`alloc3Desc_spec`, `freeChain_spec`), so that no
later proof unfolds them.  What is left for an invariant to say is that the chains
which are freed, handled and served are there (`Sound`).
-/
import Mathlib.Data.List.FinRange
import Xv6.Virtio.Machine

namespace Xv6.Virtio

open Machine Function List Option

variable {N M : Nat} {B D : Type} {s t : Sys N M B D} {pc : PC B} {r : Rw B} {x : Idx}
  {i : Fin NUM}

/-! ## What a program point says about its process -/

def Idx.toList (x : Idx) : List (Fin NUM) := [x.i0, x.i1, x.i2]

/-- The descriptors a process has taken. -/
def PC.idx : PC B → Option Idx
  | .format _ x | .ring _ x | .bump _ x | .wait _ x | .sleepBuf _ x | .relock _ x
  | .finish _ x => some x
  | _ => none

/-- The request a process has formatted. -/
def PC.linked : PC B → Option (Rw B × Idx)
  | .ring r x | .bump r x | .wait r x | .sleepBuf r x | .relock r x | .finish r x => some (r, x)
  | _ => none

/-- The request a process has given to the device and waits for. -/
def PC.waiting : PC B → Option (Rw B × Idx)
  | .wait r x | .sleepBuf r x | .relock r x => some (r, x)
  | _ => none

def PC.holds : PC B → Bool
  | .alloc _ | .format _ _ | .ring _ _ | .bump _ _ | .wait _ _ | .finish _ _ | .leave => true
  | _ => false

def Intr.holds : Intr → Bool
  | .look | .body | .leave => true
  | .off | .enter => false

theorem PC.linked_of_waiting (h : pc.waiting = some (r, x)) : pc.linked = some (r, x) := by
  cases pc <;> simp_all [PC.waiting, PC.linked]

theorem PC.idx_of_linked (h : pc.linked = some (r, x)) : pc.idx = some x ∧ pc.rw = some r := by
  cases pc <;> simp_all [PC.linked, PC.idx, PC.rw]

/-- `pc'` is `pc`, perhaps after a `wakeup`. -/
inductive PC.Woke : PC B → PC B → Prop
  | same (pc : PC B) : Woke pc pc
  | free (r : Rw B) : Woke (.sleepFree r) (.enter r)
  | buf (r : Rw B) (x : Idx) : Woke (.sleepBuf r x) (.relock r x)

theorem PC.wakeFree_woke (pc : PC B) : pc.Woke pc.wakeFree := by
  cases pc <;> constructor

theorem PC.wakeBuf_woke [DecidableEq B] (b : B) (pc : PC B) : pc.Woke (pc.wakeBuf b) := by
  cases pc with
  | sleepBuf r x =>
    rw [PC.wakeBuf]
    split
    · exact .buf r x
    · exact .same _
  | _ => exact .same _

theorem PC.Woke.trans {a b c : PC B} (h : a.Woke b) (h' : b.Woke c) : a.Woke c := by
  cases h with
  | same _ => exact h'
  | free r => cases h'; exact .free r
  | buf r x => cases h'; exact .buf r x

section Woke
variable {pc pc' : PC B} (h : pc.Woke pc')
include h

theorem PC.Woke.rw : pc'.rw = pc.rw := by cases h <;> rfl
theorem PC.Woke.idx : pc'.idx = pc.idx := by cases h <;> rfl
theorem PC.Woke.linked : pc'.linked = pc.linked := by cases h <;> rfl
theorem PC.Woke.waiting : pc'.waiting = pc.waiting := by cases h <;> rfl
theorem PC.Woke.holds : pc'.holds = pc.holds := by cases h <;> rfl

end Woke

/-! ## The descriptor functions -/

/-- `s` after `alloc_desc` has found `i`. -/
def Sys.taken (s : Sys N M B D) (i : Fin NUM) : Sys N M B D :=
  { s with disk := { s.disk with free := update s.disk.free i false } }

theorem allocDesc_some (h : allocDesc s = (some i, t)) : s.disk.free i = true ∧ t = s.taken i := by
  unfold allocDesc at h
  split at h
  · next j hj =>
      obtain ⟨rfl, rfl⟩ : j = i ∧ _ = t := by simpa using h
      exact ⟨List.find?_some hj, rfl⟩
  · simp at h

theorem allocDesc_none (h : allocDesc s = (none, t)) : t = s := by
  unfold allocDesc at h
  split at h
  · simp at h
  · simpa using h.symm

/-- `s` after `free_desc(i)`. -/
def Sys.freed (s : Sys N M B D) (i : Fin NUM) : Sys N M B D :=
  { s with
    disk := { s.disk with
      desc := update s.disk.desc i .zero
      free := update s.disk.free i true }
    pc := fun p => (s.pc p).wakeFree }

/-- A descriptor that is not free can be freed. -/
theorem freeDesc_ok (h : s.disk.free i = false) : freeDesc s i = .ok (s.freed i) := by
  have hi : (i : Nat) < NUM := i.isLt
  rw [freeDesc, dif_pos hi, if_neg (by simpa using h)]
  rfl

/-- `s` with other descriptors, and processes that may have been woken. -/
def Sys.redo (s : Sys N M B D) (d : Fin NUM → Desc B) (f : Fin NUM → Bool) (w : Fin N → PC B) :
    Sys N M B D :=
  { s with disk := { s.disk with desc := d, free := f }, pc := w }

/-- The descriptors `d` differ from those of `s` where these are free. -/
structure Failed (s : Sys N M B D) (d : Fin NUM → Desc B) (w : Fin N → PC B) : Prop where
  desc : ∀ i, s.disk.free i = false → d i = s.disk.desc i
  woke : ∀ p, (s.pc p).Woke (w p)

/-- Three free descriptors, different from each other, marked as taken. -/
structure Taken (s : Sys N M B D) (x : Idx) (f : Fin NUM → Bool) : Prop where
  nodup : x.toList.Nodup
  free : ∀ i ∈ x.toList, s.disk.free i = true
  taken : ∀ i, f i = (s.disk.free i && !decide (i ∈ x.toList))

/-- A descriptor that `alloc_desc` finds after it has taken `i`. -/
theorem free_of_update {f : Fin NUM → Bool} {j : Fin NUM}
    (h : update f i false j = true) : j ≠ i ∧ f j = true := by
  by_cases hji : j = i
  · subst hji; simp at h
  · exact ⟨hji, by rwa [update_of_ne hji] at h⟩

theorem alloc3Desc_spec (s : Sys N M B D) :
    (∃ x f, alloc3Desc s = .ok (some x, s.redo s.disk.desc f s.pc) ∧ Taken s x f) ∨
    (∃ d w, alloc3Desc s = .ok (none, s.redo d s.disk.free w) ∧ Failed s d w) := by
  unfold alloc3Desc
  rcases h0 : allocDesc s with ⟨o0, s1⟩
  cases o0 with
  | none =>
    obtain rfl := allocDesc_none h0
    exact .inr ⟨s1.disk.desc, s1.pc, rfl, fun _ _ => rfl, fun p => .same _⟩
  | some i0 =>
  obtain ⟨hf0, rfl⟩ := allocDesc_some h0
  simp only
  rcases h1 : allocDesc _ with ⟨o1, s2⟩
  cases o1 with
  | none =>
    -- the one descriptor is given back
    obtain rfl := allocDesc_none h1
    simp only
    rw [freeDesc_ok (by simp [Sys.taken])]
    refine .inr ⟨update s.disk.desc i0 .zero, fun p => (s.pc p).wakeFree, ?_, fun i hi => ?_,
      fun p => PC.wakeFree_woke _⟩
    · have : update (update s.disk.free i0 false) i0 true = s.disk.free := by simp [hf0]
      exact congrArg (fun f => Except.ok (none, s.redo _ f _)) this
    · exact update_of_ne (by rintro rfl; rw [hf0] at hi; cases hi) ..
  | some i1 =>
  obtain ⟨hf1, rfl⟩ := allocDesc_some h1
  obtain ⟨h10, hf1⟩ := free_of_update hf1
  simp only
  rcases h2 : allocDesc _ with ⟨o2, s3⟩
  cases o2 with
  | none =>
    -- both are given back
    obtain rfl := allocDesc_none h2
    simp only
    have hi0 : ((s.taken i0).taken i1).disk.free i0 = false := by simp [Sys.taken, h10.symm]
    have hi1 : (((s.taken i0).taken i1).freed i0).disk.free i1 = false := by
      simp [Sys.taken, Sys.freed, h10]
    refine .inr ⟨update (update s.disk.desc i0 .zero) i1 .zero,
      fun p => (s.pc p).wakeFree.wakeFree, ?_, fun i hi => ?_,
      fun p => (PC.wakeFree_woke _).trans (PC.wakeFree_woke _)⟩
    · rw [freeDesc_ok hi0]
      show (freeDesc (((s.taken i0).taken i1).freed i0) i1 >>= fun u => pure (none, u)) = _
      rw [freeDesc_ok hi1]
      have : update (update (update (update s.disk.free i0 false) i1 false) i0 true) i1 true
          = s.disk.free := by
        funext i
        by_cases i = i1 <;> by_cases i = i0 <;> simp_all
      exact congrArg (fun f => Except.ok (none, s.redo _ f _)) this
    · have hne0 : i ≠ i0 := by rintro rfl; rw [hf0] at hi; cases hi
      have hne1 : i ≠ i1 := by rintro rfl; rw [hf1] at hi; cases hi
      exact (update_of_ne hne1 ..).trans (update_of_ne hne0 ..)
  | some i2 =>
    obtain ⟨hf2, rfl⟩ := allocDesc_some h2
    obtain ⟨h21, hf2⟩ := free_of_update hf2
    obtain ⟨h20, hf2⟩ := free_of_update hf2
    refine .inl ⟨⟨i0, i1, i2⟩, _, rfl, ?_, ?_, fun i => ?_⟩
    · simp [Idx.toList, h10.symm, h20.symm, h21.symm]
    · simp [Idx.toList, hf0, hf1, hf2]
    · simp only [Sys.taken, update_apply, Idx.toList, mem_cons, not_mem_nil,
        or_false]
      by_cases i = i0 <;> by_cases i = i1 <;> by_cases i = i2 <;> simp_all

/-- The three descriptors of a request, as `virtio_disk_rw` writes them. -/
structure Linked (d : Disk B) (r : Rw B) (x : Idx) : Prop where
  desc0 : d.desc x.i0 = Virtio.desc0 x
  desc1 : d.desc x.i1 = Virtio.desc1 r x
  desc2 : d.desc x.i2 = Virtio.desc2 x

/-- The descriptors of `x` have been freed. -/
structure Freed (s : Sys N M B D) (x : Idx) (d : Fin NUM → Desc B) (f : Fin NUM → Bool)
    (w : Fin N → PC B) : Prop where
  desc : ∀ i, i ∉ x.toList → d i = s.disk.desc i
  free : ∀ i, f i = (s.disk.free i || decide (i ∈ x.toList))
  woke : ∀ p, (s.pc p).Woke (w p)

/-- One round of `free_chain`. -/
theorem freeChainLoop_succ (n : Nat) (h : s.disk.free i = false) : freeChainLoop (n + 1) s i =
      if (s.disk.desc i).flags &&& VRING_DESC_F_NEXT ≠ 0 then
        freeChainLoop n (s.freed i) (s.disk.desc i).next else .ok (s.freed i) := by
  rw [freeChainLoop, dif_pos i.isLt, freeDesc_ok h]
  rfl

theorem freeChain_spec (hl : Linked s.disk r x) (hx : x.toList.Nodup)
    (hf : ∀ i ∈ x.toList, s.disk.free i = false) :
    ∃ d f w, freeChain s x.i0 = .ok (s.redo d f w) ∧ Freed s x d f w := by
  simp only [Idx.toList, nodup_cons, mem_cons, not_mem_nil, or_false, not_or,
    nodup_nil, and_true, not_false_eq_true] at hx
  obtain ⟨⟨h01, h02⟩, h12⟩ := hx
  have hf0 : s.disk.free x.i0 = false := hf _ (by simp [Idx.toList])
  have hf1 : (s.freed x.i0).disk.free x.i1 = false :=
    (update_of_ne (Ne.symm h01) ..).trans (hf _ (by simp [Idx.toList]))
  have hf2 : ((s.freed x.i0).freed x.i1).disk.free x.i2 = false :=
    (update_of_ne (Ne.symm h12) ..).trans
      ((update_of_ne (Ne.symm h02) ..).trans (hf _ (by simp [Idx.toList])))
  have hd1 : (s.freed x.i0).disk.desc x.i1 = desc1 r x :=
    (update_of_ne (Ne.symm h01) ..).trans hl.desc1
  have hd2 : ((s.freed x.i0).freed x.i1).disk.desc x.i2 = desc2 x :=
    (update_of_ne (Ne.symm h12) ..).trans
      ((update_of_ne (Ne.symm h02) ..).trans hl.desc2)
  have hflag0 : (desc0 (B := B) x).flags &&& VRING_DESC_F_NEXT ≠ 0 :=
    show VRING_DESC_F_NEXT &&& VRING_DESC_F_NEXT ≠ 0 by decide
  have hflag1 : (desc1 r x).flags &&& VRING_DESC_F_NEXT ≠ 0 := by
    cases h : r.write <;> simp only [desc1, h] <;> decide
  have hflag2 : ¬ (desc2 (B := B) x).flags &&& VRING_DESC_F_NEXT ≠ 0 :=
    show ¬ VRING_DESC_F_WRITE &&& VRING_DESC_F_NEXT ≠ 0 by decide
  let t := ((s.freed x.i0).freed x.i1).freed x.i2
  refine ⟨t.disk.desc, t.disk.free, t.pc, ?_, fun i hi => ?_, fun i => ?_, fun p => ?_⟩
  · rw [freeChain, freeChainLoop_succ _ hf0, hl.desc0, if_pos hflag0]
    show freeChainLoop _ _ x.i1 = _
    rw [freeChainLoop_succ _ hf1, hd1, if_pos hflag1]
    show freeChainLoop _ _ x.i2 = _
    rw [freeChainLoop_succ _ hf2, hd2, if_neg hflag2]
    rfl
  · simp only [Idx.toList, mem_cons, not_mem_nil, or_false, not_or] at hi
    exact (update_of_ne hi.2.2 ..).trans
      ((update_of_ne hi.2.1 ..).trans (update_of_ne hi.1 ..))
  · simp only [t, Sys.freed, update_apply, Idx.toList, mem_cons, not_mem_nil, or_false]
    by_cases i = x.i0 <;> by_cases i = x.i1 <;> by_cases i = x.i2 <;> simp_all
  · exact ((PC.wakeFree_woke _).trans (PC.wakeFree_woke _)).trans (PC.wakeFree_woke _)

/-! ## The rings and the device -/

/-- The heads in the avail ring that the device has not taken. -/
def Sys.pend (s : Sys N M B D) : List Nat :=
  entries s.disk.avail.ring s.dev.seen s.disk.avail.idx

/-- The heads in the used ring that `virtio_disk_intr` has not handled. -/
def Sys.posted (s : Sys N M B D) : List Nat :=
  entries s.disk.used.ring s.disk.usedIdx s.disk.used.idx

/-- `s` after the device has taken a request. -/
def Sys.took (s : Sys N M B D) : Sys N M B D :=
  { s with dev :=
    { seen := s.dev.seen + 1
      work := s.dev.work ++ [(s.disk.avail.ring (slot NUM s.dev.seen.toNat), false)] } }

/-- `s` after the device has posted `n`, the `k`-th it has. -/
def Sys.posts (s : Sys N M B D) (k n : Nat) : Sys N M B D :=
  { s with
    disk := { s.disk with used :=
      { ring := update s.disk.used.ring (slot NUM s.disk.used.idx.toNat) n
        idx := s.disk.used.idx + 1 } }
    dev := { s.dev with work := s.dev.work.eraseIdx k } }

variable [DecidableEq B] {a : Act N M B D}

/-- `s` after an entry of the used ring, that of `b`, has been handled. -/
def Sys.handled (s : Sys N M B D) (b : B) : Sys N M B D :=
  { s with
    buf := update s.buf b { s.buf b with disk := false }
    pc := fun p => (s.pc p).wakeBuf b
    disk := { s.disk with usedIdx := s.disk.usedIdx + 1 } }

/-- `s` after the device has carried out the request of `x`, the `k`-th it has. -/
def Sys.served (s : Sys N M B D) (r : Rw B) (x : Idx) (k : Nat) : Sys N M B D :=
  let u := transfer s (blkReq r (s.buf r.b).blockno) r.b
  { u with
    disk := { s.disk with info := update s.disk.info x.i0 { s.disk.info x.i0 with status := 0 } }
    dev := { s.dev with work := s.dev.work.set k (x.i0, true) } }

/-- The chains that are freed, handled and served are there. -/
structure Sound (s : Sys N M B D) : Prop where
  finish : ∀ {p r x}, s.pc p = .finish r x → ∃ d f w,
    freeChain (clearInfo s x) x.i0 = .ok ((clearInfo s x).redo d f w) ∧ Freed s x d f w
  handle : ∀ {c}, s.intr c = .body → ∃ p r x, (s.pc p).waiting = some (r, x) ∧
    s.posted = (x.i0 : Nat) :: (s.handled r.b).posted ∧ handle s = .ok (s.handled r.b)
  serve : ∀ {k n : Nat}, s.dev.work[k]? = some (n, false) → ∃ p r x, (s.pc p).waiting = some (r, x) ∧
    n = x.i0 ∧ devServe s k = some (s.served r x k)

/-! ## The transitions -/

omit [DecidableEq B] in
theorem acquire_some {o : Fin N ⊕ Fin M} (h : s.acquire o = some t) :
    s.lock = none ∧ t = { s with lock := some o } := by
  unfold Sys.acquire at h
  split_ifs at h with hl
  exact ⟨hl, (Option.some.inj h).symm⟩

inductive Next (s : Sys N M B D) : Act N M B D → Sys N M B D → Prop
  | call {p r blockno data} (h : s.pc p = .idle)
      (hb : ∀ q r', (s.pc q).rw = some r' → r'.b ≠ r.b) :
      Next s (.call p r blockno data) ((setBuf s r.b blockno data).goto p (.enter r))
  | enter {p r} (h : s.pc p = .enter r) (hl : s.lock = none) :
      Next s (.run p) (Sys.goto { s with lock := some (.inl p) } p (.alloc r))
  | alloc {p r x f} (h : s.pc p = .alloc r)
      (hT : Taken s x f) : Next s (.run p) ((s.redo s.disk.desc f s.pc).goto p (.format r x))
  | starve {p r d w} (h : s.pc p = .alloc r)
      (hF : Failed s d w) : Next s (.run p) ((s.redo d s.disk.free w).release.goto p (.sleepFree r))
  | format {p r x} (h : s.pc p = .format r x) :
      Next s (.run p) ((formatReq s r x).goto p (.ring r x))
  | ring {p r x} (h : s.pc p = .ring r x) :
      Next s (.run p) ((putAvail s x).goto p (.bump r x))
  | bump {p r x} (h : s.pc p = .bump r x) :
      Next s (.run p) ((bumpAvail s).goto p (.wait r x))
  | sleep {p r x} (h : s.pc p = .wait r x)
      (hd : (s.buf r.b).disk = true) : Next s (.run p) (s.release.goto p (.sleepBuf r x))
  | done {p r x} (h : s.pc p = .wait r x)
      (hd : (s.buf r.b).disk = false) : Next s (.run p) (s.goto p (.finish r x))
  | relock {p r x} (h : s.pc p = .relock r x) (hl : s.lock = none) :
      Next s (.run p) (Sys.goto { s with lock := some (.inl p) } p (.wait r x))
  | finish {p r x d f}
      {w : Fin N → PC B} (h : s.pc p = .finish r x) (hF : Freed s x d f w) :
      Next s (.run p) (((clearInfo s x).redo d f w).goto p .leave)
  | leave {p} (h : s.pc p = .leave) : Next s (.run p) (s.release.goto p .idle)
  | kill {p pc} (h : (s.pc p).Woke pc) : Next s (.kill p) (s.goto p pc)
  | irq {c} (h : s.intr c = .off) : Next s (.irq c) (s.gotoIntr c .enter)
  | intrEnter {c} (h : s.intr c = .enter) (hl : s.lock = none) :
      Next s (.intr c) (Sys.gotoIntr { s with lock := some (.inr c) } c .look)
  | more {c} (h : s.intr c = .look) (hu : s.disk.usedIdx ≠ s.disk.used.idx) :
      Next s (.intr c) (s.gotoIntr c .body)
  | last {c} (h : s.intr c = .look) (hu : s.disk.usedIdx = s.disk.used.idx) :
      Next s (.intr c) (s.gotoIntr c .leave)
  | handle {c p r x} (h : s.intr c = .body)
      (hw : (s.pc p).waiting = some (r, x))
      (hpop : s.posted = (x.i0 : Nat) :: (s.handled r.b).posted) :
      Next s (.intr c) ((s.handled r.b).gotoIntr c .look)
  | intrLeave {c} (h : s.intr c = .leave) : Next s (.intr c) (s.release.gotoIntr c .off)
  | take (hne : s.dev.seen ≠ s.disk.avail.idx) : Next s .take s.took
  | serve {k p r x} (hw : (s.pc p).waiting = some (r, x))
      (hk : s.dev.work[k]? = some ((x.i0 : Nat), false)) : Next s (.serve k) (s.served r x k)
  | post {k n} (hk : s.dev.work[k]? = some (n, true)) : Next s (.post k) (s.posts k n)

theorem next_of_runProc (hs : Sound s) {p : Fin N} (h : runProc s p = some t) : Next s (.run p) t := by
  unfold runProc at h
  split at h
  · cases h
  · cases h
  · cases h
  · next r hpc =>
      obtain ⟨u, hu, rfl⟩ := map_eq_some_iff.mp h
      obtain ⟨hl, rfl⟩ := acquire_some hu
      exact .enter hpc hl
  · next r hpc =>
      rcases alloc3Desc_spec s with ⟨x, f, ha, hT⟩ | ⟨d, w, ha, hF⟩ <;> rw [ha] at h <;> cases h
      · exact .alloc hpc hT
      · exact .starve hpc hF
  · next r x hpc => cases h; exact .format hpc
  · next r x hpc => cases h; exact .ring hpc
  · next r x hpc => cases h; exact .bump hpc
  · next r x hpc =>
      split at h <;> cases h
      · next hd => exact .sleep hpc hd
      · next hd => exact .done hpc (by simpa using hd)
  · next r x hpc =>
      obtain ⟨u, hu, rfl⟩ := map_eq_some_iff.mp h
      obtain ⟨hl, rfl⟩ := acquire_some hu
      exact .relock hpc hl
  · next r x hpc =>
      obtain ⟨d, f, w, hf, hF⟩ := hs.finish hpc
      rw [hf] at h
      cases h
      exact .finish hpc hF
  · next hpc => cases h; exact .leave hpc

theorem next_of_runIntr (hs : Sound s) {c : Fin M} (h : runIntr s c = some t) : Next s (.intr c) t := by
  unfold runIntr at h
  split at h
  · cases h
  · next hc =>
      obtain ⟨u, hu, rfl⟩ := map_eq_some_iff.mp h
      obtain ⟨hl, rfl⟩ := acquire_some hu
      exact .intrEnter hc hl
  · next hc =>
      split at h <;> cases h
      · next hu => exact .more hc hu
      · next hu => exact .last hc (by simpa using hu)
  · next hc =>
      obtain ⟨p, r, x, hw, hpop, hh⟩ := hs.handle hc
      rw [hh] at h
      cases h
      exact .handle hc hw hpop
  · next hc => cases h; exact .intrLeave hc

theorem next_of_step (hs : Sound s) (h : step s a = some t) : Next s a t := by
  unfold step at h
  split_ifs at h
  cases a with
  | call p r blockno data =>
    simp only at h
    split at h <;> cases h
    next hc =>
      refine .call hc.1 fun q r' hq hb => hc.2 q ?_
      rw [hq, map_some, hb]
  | run p => exact next_of_runProc hs h
  | kill p =>
    simp only at h
    split at h <;> cases h
    · next r hpc => exact .kill (hpc ▸ .free r)
    · next r x hpc => exact .kill (hpc ▸ .buf r x)
  | irq c =>
    simp only at h
    split at h <;> cases h
    next hc => exact .irq hc
  | intr c => exact next_of_runIntr hs h
  | take =>
    simp only [devTake] at h
    split at h <;> cases h
    next hne => exact .take hne
  | serve k =>
    obtain ⟨n, hk⟩ : ∃ n, s.dev.work[k]? = some (n, false) := by
      simp only [devServe] at h
      split at h
      · next n hk => exact ⟨n, hk⟩
      · cases h
    obtain ⟨p, r, x, hw, rfl, hu⟩ := hs.serve hk
    obtain rfl := Option.some.inj (hu.symm.trans h)
    exact .serve hw hk
  | post k =>
    simp only [devPost] at h
    split at h <;> cases h
    next n hk => exact .post hk
end Xv6.Virtio
