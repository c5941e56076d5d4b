/-
# `Xv6.Files.Lifetime` — open files and pipes from the first reference to the last

The invariants of `Xv6.Files.Objects` read over whole runs.

The count of a file is that of the descriptors that point to it and of the
references in the variables of calls, up to two kinds of descriptor: the one
`sys_dup` has filled before it calls `filedup`, and the one `exit` still has to
clear after `fileclose`.  Between the two statements such a descriptor is in the
table and not in the count (`loose`).

**Proved here.**

  * counts, last references, pipe pages, failing calls (`file_lifetimes`)
  * a count may be less than the number of descriptors (`count_below_descriptors`)
-/
import Xv6.Files.Objects

namespace Xv6.Files

open Machine Function

variable {N F K P I : Nat} {s t u : Sys N F K P I} {a : Act N K P I} {p q : Fin N}
  {r r' r₀ : Proc N F K P I} {o : Obj P I}

/-! ## Descriptors -/

/-- The descriptors of a process that point to `f`. -/
def descriptors (r : Proc N F K P I) (f : Fin F) : Nat :=
  (Finset.univ.filter fun fd => r.ofile fd = some f).card

/-- A descriptor that points to `f` without being counted. -/
def loose (r : Proc N F K P I) (f : Fin F) : Nat :=
  if r.pc.stale.any fun fd => r.ofile fd = some f then 1 else 0

theorem share_add_loose (r : Proc N F K P I) (f : Fin F) :
    share r f + loose r f = descriptors r f + r.pc.refs.count f := by
  have hall : descriptors r f = slots r.ofile none f := by
    rw [descriptors, Finset.card_filter]
    exact Finset.sum_congr rfl fun fd _ => by simp [slot]
  suffices h : slots r.ofile r.pc.stale f + loose r f = slots r.ofile none f by
    rw [share, hall]; omega
  rw [loose]
  cases r.pc.stale with
  | none => rfl
  | some fd =>
    have := slots_swap r.ofile r.ofile (some fd) none fd (fun _ _ => rfl)
      (fun j hj => by simp [Ne.symm hj]) f
    simp only [slot, not_true_eq_false, and_false, if_false, reduceCtorEq, not_false_eq_true,
      and_true, Nat.add_zero] at this
    rw [← this]
    by_cases h : r.ofile fd = some f <;> simp [h]

/-! ## What happens once -/

/-- Something seen by comparing the states before and after a step. -/
def happens (R : Sys N F K P I → Sys N F K P I → Prop) [DecidableRel R]
    (x : Sys N F K P I × Act N K P I) : Bool :=
  match step x.1 x.2 with
  | some t => R x.1 t
  | none => false

/-- The last reference to a file that refers to `o` is dropped. -/
def LastRef (o : Obj P I) (s t : Sys N F K P I) : Prop :=
  ∃ f, (s.file f).obj = some o ∧ (s.file f).ref ≠ 0 ∧ (t.file f).ref = 0

instance (o : Obj P I) : DecidableRel (LastRef o : Sys N F K P I → Sys N F K P I → Prop) :=
  fun _ _ => by unfold LastRef; infer_instance

/-- What `fileclose` is about to drop. -/
def PC.dropping : PC N F K P I → Option (Obj P I)
  | .pipeclose pi w _ => some (.pipe pi w)
  | .iput ip _ => some (.inode ip)
  | _ => none

/-- `pipeclose` or `iput` is called by `fileclose`. -/
def drops (o : Obj P I) (x : Sys N F K P I × Act N K P I) : Bool :=
  match x.2 with
  | .run p _ _ => (x.1.proc p).pc.dropping = some o
  | _ => false

/-- Both sides of a pipe are closed now. -/
def BothClosed (pi : Fin P) (s t : Sys N F K P I) : Prop :=
  s.page pi ≠ some ⟨false, false⟩ ∧ t.page pi = some ⟨false, false⟩

instance (pi : Fin P) : DecidableRel (BothClosed pi : Sys N F K P I → Sys N F K P I → Prop) :=
  fun _ _ => by unfold BothClosed; infer_instance

def PageFreed (pi : Fin P) (s t : Sys N F K P I) : Prop := s.page pi ≠ none ∧ t.page pi = none

instance (pi : Fin P) : DecidableRel (PageFreed pi : Sys N F K P I → Sys N F K P I → Prop) :=
  fun _ _ => by unfold PageFreed; infer_instance

/-- The process of an action. -/
def Act.proc : Act N K P I → Fin N
  | .call p _ => p
  | .run p _ _ => p
  | .reap q => q

theorem Acts.proc (h : Acts s a p) : a.proc = p := by
  rcases h with ⟨c, rfl, -⟩ | ⟨mem, ok, rfl, -⟩ <;> rfl

theorem Acts.drops (h : Acts s a p) (o : Obj P I) :
    drops o (s, a) = decide ((s.proc p).pc.dropping = some o) := by
  rcases h with ⟨c, rfl, hp⟩ | ⟨mem, ok, rfl, -⟩
  · simp [Files.drops, hp, PC.dropping]
  · rfl

theorem Own.dropping (h : Own r r') : r'.pc.dropping = none := by cases h <;> rfl

variable {f : Fin F} {H : List (Sys N F K P I × Act N K P I)} {pc pc' : PC N F K P I}
  {l : List (Fin K)} {c : Call N K I}

theorem Alloc.dropping (h : Alloc pc f pc') : pc'.dropping = none := by cases h <;> rfl

theorem Dup.dropping (h : Dup r f r') : r'.pc.dropping = none := by cases h <;> rfl

theorem Kont.pc_dropping (k : Kont F K I) : (k.pc : PC N F K P I).dropping = none := by
  cases k <;> rfl

def pending (o : Obj P I) (r : Proc N F K P I) : Nat := if r.pc.dropping = some o then 1 else 0

/-- A step takes what its process was about to drop, and leaves what it is about to
drop now. -/
theorem pending_step (hF : Family s) (hn : Next s a t) (o : Obj P I) :
    (drops o (s, a)).toNat + total (pending o) t =
      total (pending o) s + pending o (t.proc a.proc) := by
  have hdrops {p : Fin N} (ha : Acts s a p) : (drops o (s, a)).toNat = pending o (s.proc p) := by
    rw [ha.drops, pending]; split <;> simp_all
  have hone {p : Fin N} {r : Proc N F K P I} (ha : Acts s a p)
      (ht : t.proc = update s.proc p r) : (drops o (s, a)).toNat + total (pending o) t =
        total (pending o) s + pending o (t.proc a.proc) := by
    have := total_update (pending o) ht
    rw [hdrops ha, ha.proc, ht, update_self]
    omega
  have htwo {p np : Fin N} {r : Proc N F K P I} (r' : Proc N F K P I) (ha : Acts s a p)
      (hpn : p ≠ np) (ht : t.proc = update (update s.proc np r') p r)
      (hr' : pending o r' = pending o (s.proc np)) : (drops o (s, a)).toNat + total (pending o) t =
        total (pending o) s + pending o (t.proc a.proc) := by
    have h1 := total_update (s := { s with proc := update s.proc np r' }) (pending o) ht
    have h2 := total_same (t := { s with proc := update s.proc np r' })
      (pending o) rfl hr'
    simp only [update_of_ne hpn] at h1
    rw [hdrops ha, ha.proc, ht, update_self]
    omega
  have hfail {p : Fin N} (ha : Acts s a p) (ht : t.proc = s.proc) :
      (drops o (s, a)).toNat + total (pending o) t =
        total (pending o) s + pending o (t.proc a.proc) :=
    hone ha (by rw [ht, update_eq_self])
  cases hn with
  | @fork p np ha hp hn =>
    have hpn : p ≠ np := by rintro rfl; rw [hp] at hn; cases hn
    exact htwo { s.proc np with pc := .embryo } ha hpn
      (by simp [Sys.goto, Sys.setProc, hpn]; rfl) (by simp [pending, hn, PC.dropping])
  | @forkStore p np i f ha hp =>
    have hpn : p ≠ np := hF.ne_child (by rw [hp]; rfl)
    exact htwo { s.proc np with ofile := update (s.proc np).ofile i (some f) } ha hpn
      (by simp [Sys.setSlot, Sys.goto, Sys.setProc, hpn]; rfl) rfl
  | @forkCwd p np ip ha hp _ =>
    have hc : (s.proc p).pc.child = some np := by rw [hp]; rfl
    have hpn := hF.ne_child hc
    exact htwo { s.proc np with cwd := some ip, pc := .run } ha hpn
      (by simp [Sys.ret, Sys.setProc, idup, hpn]; rfl)
      (by simp [pending, hF.child p np hc, PC.dropping])
  | @reap q ha hq =>
    subst ha
    have ht : (s.goto q .unused).proc = update s.proc q { s.proc q with pc := .unused } :=
      rfl
    have := total_same (pending o) ht (by simp [pending, hq, PC.dropping])
    rw [this]
    simp [drops, Act.proc, ht, pending, PC.dropping]
  | own ha _ | openGet ha _ | alloc ha _ _ | openSet ha _ | openPut ha _ | dup ha _ _
  | drop ha _ _ | lastNone ha _ _ _ | lastPipe ha _ _ _ | lastInode ha _ _ _
  | pipeclose ha _ _ _ | pipeLast ha _ _ _ | kfree ha _ _ | iput ha _ | pipeSetup ha _ _
  | exitCwd ha _ _ => exact hone ha rfl
  | dupPanic ha _ _ | closePanic ha _ _ | closeFault ha _ _ _ | pipeFault ha _ _
  | kfreePanic ha _ _ | cwdFault ha _ _ => exact hfail ha rfl

/-- A file is overwritten that keeps a reference, or refers to nothing. -/
theorem ref_of_update {v : File P I} (ht : t.file = update s.file f v)
    (hv : (s.file f).obj ≠ none → v.ref ≠ 0) (g : Fin F) (ho : (s.file g).obj ≠ none)
    (hg : (s.file g).ref ≠ 0) : (t.file g).ref ≠ 0 := by
  rw [ht]
  by_cases hgf : g = f
  · subst hgf; rw [update_self]; exact hv ho
  · rwa [update_of_ne hgf]

theorem lastRef_iff (h : Inv s) (hn : Next s a t) (o : Obj P I) :
    (t.proc a.proc).pc.dropping = some o ↔ LastRef o s t := by
  have hnone {p : Fin N} {r : Proc N F K P I} (ha : a.proc = p) (ht : t.proc p = r)
      (hd : r.pc.dropping = none)
      (hf : ∀ f, (s.file f).obj ≠ none → (s.file f).ref ≠ 0 → (t.file f).ref ≠ 0) :
      (t.proc a.proc).pc.dropping = some o ↔ LastRef o s t := by
    rw [ha, ht, hd]
    exact ⟨nofun, fun ⟨f, ho, h₁, h2⟩ => absurd h2 (hf f (by rw [ho]; nofun) h₁)⟩
  have hlast {p : Fin N} {r : Proc N F K P I} {f : Fin F} {o' : Obj P I} (ha : a.proc = p)
      (ht : t.proc p = r) (hd : r.pc.dropping = some o') (ho : (s.file f).obj = some o')
      (hr : (s.file f).ref = 1) (hf : t.file = update s.file f (s.file f).closed) :
      (t.proc a.proc).pc.dropping = some o ↔ LastRef o s t := by
    rw [ha, ht, hd]
    constructor
    · intro e
      cases e
      exact ⟨f, ho, by rw [hr]; nofun, by rw [hf, update_self]; rfl⟩
    · rintro ⟨g, hg, h₁, h2⟩
      have hgf : g = f := by
        by_contra hne
        rw [hf, update_of_ne hne] at h2
        exact h₁ h2
      rw [← ho, ← hg, hgf]
  have hpanic := h.panic_step hn
  cases hn with
  | own ha ho => exact hnone ha.proc (update_self ..) ho.dropping fun _ _ => id
  | fork ha _ _ | openPut ha _ | pipeLast ha _ _ _ | forkStore ha _ | forkCwd ha _ _
  | exitCwd ha _ _ => exact hnone ha.proc (update_self ..) rfl fun _ _ => id
  | openGet ha _ =>
    exact hnone ha.proc (update_self ..) (by split <;> rfl) fun _ _ => id
  | alloc ha hal _ | dup ha hal _ =>
    exact hnone ha.proc (update_self ..) hal.dropping (ref_of_update rfl fun _ => nofun)
  | @openSet p f fd o ha hp =>
    have hr := (h.books.fresh p f (by rw [hp]; simp [PC.fresh])).1
    exact hnone ha.proc (update_self ..) rfl
      (ref_of_update rfl fun _ => (by show (s.file f).ref ≠ 0; omega))
  | @drop p f k ha _ hr =>
    exact hnone ha.proc (update_self ..) (Kont.pc_dropping _)
      (ref_of_update rfl fun _ => (by show (s.file f).ref - 1 ≠ 0; omega))
  | lastNone ha _ _ htype =>
    exact hnone ha.proc (update_self ..) (Kont.pc_dropping _)
      (ref_of_update rfl fun hne => absurd (fresh_obj htype) hne)
  | lastPipe ha _ hr ho | lastInode ha _ hr ho =>
    exact hlast ha.proc (update_self ..) rfl ho hr rfl
  | pipeclose ha _ _ _ | kfree ha _ _ | iput ha _ =>
    exact hnone ha.proc (update_self ..) (Kont.pc_dropping _) fun _ _ => id
  | @pipeSetup p f0 f1 pi ha hp _ =>
    have h0 := (h.books.fresh p f0 (by rw [hp]; simp [PC.fresh])).1
    have h1 := (h.books.fresh p f1 (by rw [hp]; simp [PC.fresh])).1
    refine hnone ha.proc (update_self ..) rfl fun g _ hg => ?_
    show ((pipeSetup s f0 f1 pi).file g).ref ≠ 0
    by_cases hg1 : g = f1
    · subst hg1; simp [pipeSetup, Sys.setFile, h1]
    · by_cases hg0 : g = f0
      · subst hg0; simp [pipeSetup, Sys.setFile, hg1, h0]
      · simpa [pipeSetup, Sys.setFile, hg1, hg0] using hg
  | reap ha hq =>
    subst ha
    exact hnone rfl (update_self ..) rfl fun _ _ => id
  | dupPanic ha _ _ => cases hpanic
  | closePanic ha _ _ => cases hpanic
  | closeFault ha _ _ _ => cases hpanic
  | pipeFault ha _ _ => cases hpanic
  | kfreePanic ha _ _ => cases hpanic
  | cwdFault ha _ _ => cases hpanic

theorem drops_run (h : Run Init step H s) (o : Obj P I) :
    H.countP (happens (LastRef o)) = H.countP (drops o) + total (pending o) s := by
  refine h.countP_balance (fun s hi => ?_) fun H s a t h hst => ?_
  · refine Finset.sum_eq_zero fun p _ => ?_
    rcases hi.pc p with e | e <;> simp [pending, e, PC.dropping]
  · have hn := (next_of_step hst).2
    have hstep := pending_step (inv_run h).family hn o
    have hlast := lastRef_iff (inv_run h) hn o
    have hb : (happens (LastRef o) (s, a)).toNat = pending o (t.proc a.proc) := by
      simp only [happens, hst, pending, hlast]
      split <;> simp_all
    omega

/-- How a page can change. -/
theorem page_step (h : Inv s) (hn : Next s a t) (pi : Fin P) : t.page pi = s.page pi ∨
    (s.page pi ≠ some ⟨false, false⟩ ∧ t.page pi ≠ none) ∨
    (s.page pi = some ⟨false, false⟩ ∧ t.page pi = none) := by
  have hset {pi' : Fin P} {v : Option Pipe} (ht : t.page = update s.page pi' v)
      (hv : (s.page pi' ≠ some ⟨false, false⟩ ∧ v ≠ none) ∨
        (s.page pi' = some ⟨false, false⟩ ∧ v = none)) : t.page pi = s.page pi ∨
      (s.page pi ≠ some ⟨false, false⟩ ∧ t.page pi ≠ none) ∨
      (s.page pi = some ⟨false, false⟩ ∧ t.page pi = none) := by
    by_cases hp : pi = pi'
    · subst hp; rw [ht, update_self]; exact .inr hv
    · exact .inl (by rw [ht, update_of_ne hp])
  have hopen {p : Fin N} {pi' : Fin P} {w : Bool} {k : Kont F K I}
      (hp : (s.proc p).pc = .pipeclose pi' w k) : s.page pi' ≠ some ⟨false, false⟩ := by
    obtain ⟨pp, hpp, hw⟩ := h.objects.side hp
    rw [hpp]
    rintro ⟨⟩
    cases w <;> cases hw
  cases hn with
  | pipeclose _ hp _ _ | pipeLast _ hp _ _ => exact hset rfl (.inl ⟨hopen hp, nofun⟩)
  | kfree _ hp _ => exact hset rfl (.inr ⟨h.objects.closed hp, rfl⟩)
  | pipeSetup _ _ hpi => exact hset rfl (.inl ⟨by rw [hpi]; nofun, nofun⟩)
  | _ => exact .inl rfl

theorem pages_run (h : Run Init step H s) (pi : Fin P) :
    H.countP (happens (BothClosed pi)) = H.countP (happens (PageFreed pi)) + s.gone pi := by
  refine h.countP_balance (v := (Sys.gone · pi)) (fun s hi => by simp [Sys.gone, hi.page])
    fun H s a t h hst => ?_
  simp only [happens, hst, BothClosed, PageFreed, Sys.gone]
  rcases page_step (inv_run h) (next_of_step hst).2 pi with e | ⟨e, e'⟩ | ⟨e, e'⟩
  · by_cases hc : s.page pi = some ⟨false, false⟩ <;> simp [e, hc]
  · by_cases hc : t.page pi = some ⟨false, false⟩ <;> simp [e, e', hc]
  · simp [e, e']

/-! ## Calls that fail -/

/-- `open`, `dup` and `pipe`. -/
def Call.opens : Call N K I → Bool
  | .open _ _ | .dup _ | .pipe => true
  | _ => false

/-- Such a call has failed and gives back what it has. -/
def Kont.filled : Kont F K I → Option (List (Fin K))
  | .ret none | .put _ | .close _ => some []
  | _ => none

/-- The descriptors such a call has filled so far. -/
def PC.filled : PC N F K P I → Option (List (Fin K))
  | .run | .openFile _ | .openFd _ _ | .openPut _ => some []
  | .pipeF0 | .pipeF1 _ | .pipeMem _ _ | .pipeFd0 _ _ => some []
  | .openSet _ fd _ | .dupRef _ fd => some [fd]
  | .pipeFd1 _ _ fd0 => some [fd0]
  | .pipeCopy _ _ fd0 fd1 => some [fd0, fd1]
  | .close _ k | .pipeclose _ _ k | .kfree _ k | .iput _ k => k.filled
  | _ => none

/-- But for those the process is as `r₀`. -/
structure Undoes (r₀ r : Proc N F K P I) (l : List (Fin K)) : Prop where
  filled : r.pc.filled = some l
  ofile : ∀ fd, r₀.ofile fd = if fd ∈ l then none else r.ofile fd
  cwd : r.cwd = r₀.cwd

section Undoes
variable {l l' : List (Fin K)} {pc : PC N F K P I} {fd : Fin K} {v : Option Nat} {k : Kont F K I}

theorem Undoes.at (h : Undoes r₀ r l) (hp : r.pc = pc) (hf : pc.filled = some l') :
    Undoes r₀ r l' := by
  have : l = l' := by rw [← Option.some_inj, ← h.filled, hp, hf]
  exact this ▸ h

theorem Undoes.goto (h : Undoes r₀ r l) (hf : pc.filled = some l) :
    Undoes r₀ { r with pc, ret := v } l := ⟨hf, h.ofile, h.cwd⟩

/-- A free descriptor is filled. -/
theorem Undoes.fill {f : Fin F} (h : Undoes r₀ r l) (hfd : r.ofile fd = none)
    (hf : pc.filled = some l') (hl : ∀ j, j ∈ l' ↔ j ∈ l ∨ j = fd) :
    Undoes r₀ { r with ofile := update r.ofile fd (some f), pc } l' := by
  refine ⟨hf, fun j => ?_, h.cwd⟩
  rw [h.ofile j]
  by_cases hj : j = fd
  · subst hj; simp [hl, hfd]
  · simp [hl, hj]

/-- A descriptor is cleared. -/
theorem Undoes.clear (h : Undoes r₀ r l) (hf : pc.filled = some l')
    (hl : ∀ j, j ∈ l ↔ j ∈ l' ∨ j = fd) :
    Undoes r₀ { r with ofile := update r.ofile fd none, pc } l' := by
  refine ⟨hf, fun j => ?_, h.cwd⟩
  rw [h.ofile j]
  by_cases hj : j = fd
  · subst hj; simp [hl]
  · simp [hl, hj]

theorem Kont.pc_filled (h : k.filled = some l) : (k.pc : PC N F K P I).filled = some l := by
  cases k with
  | ret v => cases v with
    | none => exact h
    | some n => cases h
  | put ip => exact h
  | close f => exact h
  | clear fd => cases h

theorem Undoes.resume (h : Undoes r₀ r l) (hp : r.pc.filled = k.filled) :
    Undoes r₀ (r.resume k) l :=
  ⟨Kont.pc_filled (hp ▸ h.filled), h.ofile, h.cwd⟩

end Undoes

/-- The call is under way, or has succeeded. -/
def Pending (r₀ r : Proc N F K P I) : Prop := (r.pc = .run ∧ r.ret ≠ none) ∨ ∃ l, Undoes r₀ r l

theorem Own.pending (h : Own r r') (hne : r.pc ≠ .run) (hu : Undoes r₀ r l) : Pending r₀ r' := by
  cases h with
  | fail h | dup h _ _ | close h _ | pipe h | exit h => exact absurd h hne
  | openNoFile h | openNoFd h | pipeNoF0 h | pipeNoF1 h | pipeNoMem h | pipeNoFd0 h =>
    exact .inr ⟨[], (hu.at h rfl).goto rfl⟩
  | openFd h hfd | pipeFd0 h hfd | pipeFd1 h hfd =>
    exact .inr ⟨_, (hu.at h rfl).fill hfd rfl (by simp)⟩
  | pipeNoFd1 h => exact .inr ⟨[], (hu.at h rfl).clear rfl (by simp)⟩
  | pipeOk h => exact .inl ⟨rfl, nofun⟩
  | @pipeBad f0 f1 fd0 fd1 h =>
    have h1 := (hu.at h rfl).clear (show (PC.dupRef f0 fd1).filled = some [fd1] from rfl)
      fun j => (List.mem_cons.trans or_comm)
    exact .inr ⟨[], h1.clear rfl (by simp)⟩
  | forkSkip h | forkLast h | exitSkip h _ | exitClose h _ | exitLast h _ | clear h =>
    exact absurd hu.filled (by rw [h]; nofun)

theorem Alloc.filled (h : Alloc pc f pc') :
    pc.filled = some [] ∧ pc'.filled = some [] := by cases h <;> exact ⟨rfl, rfl⟩

theorem Dup.pending (h : Dup r f r') (hu : Undoes r₀ r l) : Pending r₀ r' := by
  cases h with
  | dup h => exact .inl ⟨rfl, nofun⟩
  | fork h _ => exact absurd hu.filled (by rw [h]; nofun)

theorem Pending.filled (h : Pending r₀ r) : r.pc.filled ≠ none := by
  rcases h with ⟨hr, -⟩ | ⟨l, hu⟩
  · rw [hr]; nofun
  · rw [hu.filled]; nofun

theorem Pending.step (hF : Family s) (h : Pending r₀ (s.proc p)) (hn : Next s a t)
    (hc : ∀ c, a ≠ .call p c) : Pending r₀ (t.proc p) := by
  have hmine {q : Fin N} (ha : Acts s a q) (hq : q = p) :
      (s.proc q).pc ≠ .run ∧ ∃ l, Undoes r₀ (s.proc q) l := by
    subst hq
    have hne : (s.proc q).pc ≠ .run := by
      rcases ha with ⟨c, rfl, -⟩ | ⟨mem, ok, rfl, hne⟩
      · exact absurd rfl (hc c)
      · exact hne
    exact ⟨hne, h.resolve_left fun hr => hne hr.1⟩
  have hone {q : Fin N} {r : Proc N F K P I} (ha : Acts s a q)
      (ht : t.proc = update s.proc q r)
      (hr : (s.proc q).pc ≠ .run → ∀ l, Undoes r₀ (s.proc q) l → Pending r₀ r) :
      Pending r₀ (t.proc p) := by
    by_cases hq : q = p
    · obtain ⟨hne, l, hu⟩ := hmine ha hq
      rw [ht, ← hq, update_self]
      exact hr hne l hu
    · rwa [ht, update_of_ne (Ne.symm hq)]
  -- `p` is not the child of a `fork`, and does not make one
  have htwo {q : Fin N} (np : Fin N) {r r' : Proc N F K P I} (ha : Acts s a q)
      (ht : t.proc = update (update s.proc np r') q r)
      (hnp : (s.proc np).pc.filled = none)
      (hq : (s.proc q).pc = .run ∨ (s.proc q).pc.filled = none) : Pending r₀ (t.proc p) := by
    have hpn : p ≠ np := by rintro rfl; exact h.filled hnp
    have hqp : p ≠ q := by
      rintro rfl
      obtain ⟨hne, l, hu⟩ := hmine ha rfl
      have := hu.filled
      rw [hq.resolve_left hne] at this
      cases this
    rwa [ht, update_of_ne hqp, update_of_ne hpn]
  cases hn with
  | own ha ho => exact hone ha rfl fun hne l hu => ho.pending hne hu
  | @fork q np ha hp hn =>
    have hpn : q ≠ np := by rintro rfl; rw [hp] at hn; cases hn
    exact htwo np ha (by simp [Sys.goto, Sys.setProc, hpn]; rfl) (by rw [hn]; rfl) (.inl hp)
  | openGet ha hp => exact hone ha rfl fun hne => absurd hp hne
  | alloc ha hal _ =>
    exact hone ha rfl fun _ l hu => .inr ⟨[], (hu.at rfl hal.filled.1).goto hal.filled.2⟩
  | openSet ha hp => exact hone ha rfl fun _ _ _ => .inl ⟨rfl, by rintro ⟨⟩⟩
  | openPut ha hp | pipeSetup ha hp _ =>
    exact hone ha rfl fun _ l hu => .inr ⟨[], (hu.at hp rfl).goto rfl⟩
  | dup ha hd _ => exact hone ha rfl fun _ l hu => hd.pending hu
  | drop ha hp _ | lastNone ha hp _ _ | pipeclose ha hp _ _ | kfree ha hp _ | iput ha hp =>
    exact hone ha rfl fun _ l hu => .inr ⟨l, hu.resume (by rw [hp]; rfl)⟩
  | lastPipe ha hp _ _ | lastInode ha hp _ _ | pipeLast ha hp _ _ =>
    exact hone ha rfl fun _ l hu => .inr ⟨l, hu.goto (by have := hu.filled; rwa [hp] at this)⟩
  | @forkStore q np i f ha hp =>
    have hch : (s.proc q).pc.child = some np := by rw [hp]; rfl
    have hpn := hF.ne_child hch
    exact htwo np ha (by simp [Sys.setSlot, Sys.goto, Sys.setProc, hpn]; rfl)
      (by rw [hF.child q np hch]; rfl) (.inr (by rw [hp]; rfl))
  | @forkCwd q np ip ha hp _ =>
    have hch : (s.proc q).pc.child = some np := by rw [hp]; rfl
    have hpn := hF.ne_child hch
    exact htwo np ha (by simp [Sys.ret, Sys.setProc, idup, hpn]; rfl)
      (by rw [hF.child q np hch]; rfl) (.inr (by rw [hp]; rfl))
  | exitCwd ha hp _ => exact hone ha rfl fun _ l hu => absurd hu.filled (by rw [hp]; rintro ⟨⟩)
  | @reap q ha hq =>
    have hne : p ≠ q := by rintro rfl; exact h.filled (by rw [hq]; rfl)
    have : (s.goto q .unused).proc p = s.proc p := update_of_ne hne ..
    rwa [this]
  | _ => exact h

theorem Call.pending (hc : c.opens = true) (hp : (s.proc p).pc = .run)
    (h : call s p c = some t) : Pending (s.proc p) (t.proc p) := by
  have hself : Undoes (s.proc p) (s.proc p) [] := ⟨by rw [hp]; rfl, fun _ => rfl, rfl⟩
  have hset {u : Sys N F K P I} {r : Proc N F K P I} {l : List (Fin K)}
      (hu : Undoes (s.proc p) r l) : Pending (s.proc p) ((u.setProc p r).proc p) :=
    .inr ⟨l, by rwa [show (u.setProc p r).proc p = r from update_self ..]⟩
  cases c with
  | «open» o ok =>
    cases o with
    | none => cases h; exact hset (hself.goto rfl)
    | some o => cases h; exact hset (hself.goto (by split <;> rfl))
  | dup fd =>
    simp only [call] at h
    split at h <;> cases h
    · next fd f fd' hf hfd =>
        rw [setSlot_goto]
        exact hset (hself.fill (freeFd_some hfd) rfl (by simp))
    · exact hset (hself.goto rfl)
  | pipe => cases h; exact hset (hself.goto rfl)
  | close fd => cases hc
  | fork np ok => cases hc
  | exit => cases hc

/-- A call of `open`, `dup` or `pipe` that fails leaves its process as it was. -/
theorem fails_run {g : List (Sys N F K P I × Act N K P I)}
    (h : Run Init step (H ++ (u, .call p c) :: g) s) (hc : c.opens = true)
    (hg : ∀ x ∈ g, ∀ c', x.2 ≠ .call p c') (hp : (s.proc p).pc = .run)
    (hret : (s.proc p).ret = none) :
    (s.proc p).ofile = (u.proc p).ofile ∧ (s.proc p).cwd = (u.proc p).cwd ∧
      ∀ f, share (s.proc p) f = share (u.proc p) f := by
  obtain ⟨hu, v, hst, hrun⟩ := h.split
  have hp' : (u.proc p).pc = .run ∧ call u p c = some v := by
    simp only [step] at hst
    split at hst
    · cases hst
    · split_ifs at hst
      exact ⟨‹_›, hst⟩
  have hv : Inv v := (inv_run hu).next (next_of_step hst).2
  have hpend : Inv s ∧ Pending (u.proc p) (s.proc p) := by
    refine hrun.inv_of_steps (I := fun t => Inv t ∧ Pending (u.proc p) (t.proc p))
      (C := fun _ a => ∀ c', a ≠ .call p c') ?_ (fun t a w ht hcall htw => ?_) hg
    · rintro _ rfl
      exact ⟨hv, Call.pending hc hp'.1 hp'.2⟩
    · exact ⟨ht.1.next (next_of_step htw).2, ht.2.step ht.1.family (next_of_step htw).2 hcall⟩
  obtain ⟨l, hl⟩ := hpend.2.resolve_left fun hr => hr.2 hret
  have hnil := hl.at hp rfl
  have hofile : (s.proc p).ofile = (u.proc p).ofile := by
    funext fd
    simpa using (hnil.ofile fd).symm
  exact ⟨hofile, hnil.cwd, fun f => by rw [share, share, hofile, hp, hp'.1]⟩

/-! ## Lifetimes -/

/-- A pipe an open file refers to is there, and the file's side of it open. -/
theorem Objects.pipe_open (h : Objects s) {pi : Fin P} {w : Bool}
    (hf : (s.file f).obj = some (.pipe pi w)) : ∃ pp, s.page pi = some pp ∧ pp.side w = true := by
  have h1 := h.held (.pipe pi w)
  have h2 : 1 ≤ files s (.pipe pi w) := by
    have : (s.file f).obj.toList.count (.pipe pi w) ≤ files s (.pipe pi w) :=
      Finset.single_le_sum (f := fun g => (s.file g).obj.toList.count (.pipe pi w))
        (fun _ _ => Nat.zero_le _) (Finset.mem_univ f)
    simpa [hf] using this
  exact side_of_count (by omega)

theorem file_lifetimes {H : List (Sys N F K P I × Act N K P I)} (h : Run Init step H s) :
    -- counts
    (∀ f, (s.file f).ref + ∑ p, loose (s.proc p) f =
      ∑ p, (descriptors (s.proc p) f + (s.proc p).pc.refs.count f)) ∧
    (∀ f, (s.file f).ref = 0 → (s.file f).type = .none) ∧
    -- what a file refers to is dropped once, when its last reference is gone
    (∀ o, H.countP (happens (LastRef o)) = H.countP (drops o) + ∑ p, pending o (s.proc p)) ∧
    (∀ o, s.count o = files s o + ∑ p, (s.proc p).objs.count o) ∧
    -- the page of a pipe is freed once, when both sides are closed
    (∀ pi, H.countP (happens (BothClosed pi)) = H.countP (happens (PageFreed pi)) + s.gone pi ∧
      s.gone pi = ∑ p, (s.proc p).frees pi) ∧
    (∀ f pi w, (s.file f).obj = some (.pipe pi w) →
      ∃ pp, s.page pi = some pp ∧ pp.side w = true) ∧
    s.panic = none ∧
    -- calls that fail
    (∀ H' u p c g, H = H' ++ (u, .call p c) :: g → c.opens = true →
      (∀ x ∈ g, ∀ c', x.2 ≠ .call p c') → (s.proc p).pc = .run → (s.proc p).ret = none →
      (s.proc p).ofile = (u.proc p).ofile ∧ (s.proc p).cwd = (u.proc p).cwd ∧
        ∀ f, share (s.proc p) f = share (u.proc p) f) := by
  have hI := inv_run h
  refine ⟨fun f => ?_, hI.books.free, drops_run h, hI.objects.held,
    fun pi => ⟨pages_run h pi, hI.objects.gone pi⟩, fun f pi w => hI.objects.pipe_open, hI.panic, ?_⟩
  · rw [hI.books.count f, total, ← Finset.sum_add_distrib]
    exact Finset.sum_congr rfl fun p _ => share_add_loose (s.proc p) f
  · rintro H' u p c g rfl hc hg hp hret
    exact fails_run h hc hg hp hret

/-- The first process, with the tables as `param.h` has them, four pages and four inodes. -/
def boot : Sys 64 100 16 4 4 where
  file _ := ⟨0, .none, false, false, none, none⟩
  proc p := ⟨fun _ => none, if p = 0 then some 0 else none, if p = 0 then .run else .unused, none⟩
  page _ := none
  iref ip := if ip = 0 then 1 else 0
  panic := none

theorem boot_init : Init boot where
  file _ := ⟨rfl, rfl⟩
  ofile _ _ := rfl
  page _ := rfl
  panic := rfl
  procs := ⟨0, 0, rfl, rfl, fun p hp => by simp [boot, hp], fun _ => rfl⟩

/-- `pipe`, for which there is no page. -/
def noPage : List (Act 64 16 4 4) :=
  [.call 0 .pipe, .run 0 none true, .run 0 none true, .run 0 none true, .run 0 none true,
    .run 0 none true]

theorem file_lifetimes_noPage : ∃ s, Run Init step (hist step boot noPage) s ∧
    (s.proc 0).ret = none ∧ (s.file 0).type = .none ∧
    (s.file 0).ref + ∑ p, loose (s.proc p) 0 =
      ∑ p, (descriptors (s.proc p) 0 + (s.proc p).pc.refs.count 0) := by
  have he : (exec step boot noPage).map (fun s => ((s.proc 0).ret, (s.file 0).ref)) =
    some (none, 0) := by decide +kernel
  obtain ⟨s, hrun, hv⟩ := run_of_exec boot_init he
  obtain ⟨hret, href⟩ := Prod.mk.inj hv
  obtain ⟨hcount, hfree, -⟩ := file_lifetimes hrun
  exact ⟨s, hrun, hret, hfree 0 href, hcount 0⟩

/-- `open`, and `dup` before its `filedup`. -/
def openDup : List (Act 64 16 4 4) :=
  [.call 0 (.open (some ⟨1, false, true, true⟩) true), .run 0 none true, .run 0 none true,
    .run 0 none true, .call 0 (.dup 0)]

theorem count_below_descriptors : ∃ s, Run Init step (hist step boot openDup) s ∧
    (s.file 0).ref < ∑ p, descriptors (s.proc p) 0 := by
  have he : (exec step boot openDup).map
    (fun s => decide ((s.file 0).ref < descriptors (s.proc 0) 0)) = some true := by decide +kernel
  obtain ⟨s, hrun, hv⟩ := run_of_exec boot_init he
  refine ⟨s, hrun, Nat.lt_of_lt_of_le (of_decide_eq_true hv) ?_⟩
  exact Finset.single_le_sum (f := fun p => descriptors (s.proc p) 0) (fun _ _ => Nat.zero_le _)
    (Finset.mem_univ 0)

end Xv6.Files
