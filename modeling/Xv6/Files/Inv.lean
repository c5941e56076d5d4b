/-
# `Xv6.Files.Inv` — references to open files

Two groups of facts, kept by every step:

  * `Family`: every process's table is as its program point says, and a child
    that `fork` is making belongs to one parent;
  * `Books`: the count of a file is the sum of what the processes have of it, a
    file nobody has is `FD_NONE`, and one still to be set up has one owner.
-/
import Xv6.Files.Steps

namespace Xv6.Files

open Machine Function List

variable {N F K P I : Nat} {s t u : Sys N F K P I} {a : Act N K P I} {p q : Fin N}
  {r r' : Proc N F K P I}

/-! ## Sums over the processes -/

def total (g : Proc N F K P I → Nat) (s : Sys N F K P I) : Nat := ∑ p, g (s.proc p)

section
variable (g : Proc N F K P I → Nat)

theorem total_update (ht : t.proc = update s.proc p r) :
    total g t + g (s.proc p) = total g s + g r := by
  rw [total, ht]; exact sum_update_add g s.proc p r

theorem total_same (ht : t.proc = update s.proc p r)
    (hg : g r = g (s.proc p)) : total g t = total g s := by
  have := total_update g ht
  omega

/-- Two processes move. -/
theorem total_update₂ (hpq : p ≠ q) (ht : t.proc = update (update s.proc q r') p r) :
    total g t + g (s.proc p) + g (s.proc q) = total g s + g r + g r' := by
  have h1 := sum_update_add g s.proc q r'
  have h2 := sum_update_add g (update s.proc q r') p r
  rw [update_of_ne hpq] at h2
  rw [total, total, ht]
  omega

theorem le_total (s : Sys N F K P I) (p : Fin N) : g (s.proc p) ≤ total g s :=
  Finset.single_le_sum (f := fun q => g (s.proc q)) (fun _ _ => Nat.zero_le _) (Finset.mem_univ p)

theorem add_le_total (s : Sys N F K P I) (hpq : p ≠ q) :
    g (s.proc p) + g (s.proc q) ≤ total g s := by
  have h1 := Finset.add_sum_erase Finset.univ (fun q => g (s.proc q)) (Finset.mem_univ p)
  have h2 : g (s.proc q) ≤ ∑ j ∈ Finset.univ.erase p, g (s.proc j) :=
    Finset.single_le_sum (f := fun j => g (s.proc j)) (fun _ _ => Nat.zero_le _)
      (Finset.mem_erase.mpr ⟨hpq.symm, Finset.mem_univ q⟩)
  rw [total, ← h1]
  exact Nat.add_le_add_left h2 _

end

/-! ## Continuations -/

section
variable (k : Kont F K I)

theorem Kont.pc_stale : (k.pc : PC N F K P I).stale = k.stale := by
  cases k <;> rfl

theorem Kont.pc_refs : (k.pc : PC N F K P I).refs = k.refs := by
  cases k <;> rfl

theorem Kont.pc_objs : (k.pc : PC N F K P I).objs = k.objs := by
  cases k <;> rfl

/-- A continuation begins no new business. -/
theorem Kont.pc_plain : (k.pc : PC N F K P I).fresh = [] ∧
    (k.pc : PC N F K P I).child = none ∧ (k.pc : PC N F K P I).freeing = none ∧
    (k.pc : PC N F K P I).alive = true := by
  cases k <;> exact ⟨rfl, rfl, rfl, rfl⟩

end

variable {f g : Fin F} {k : Kont F K I} {pc pc' : PC N F K P I} {np : Fin N} {v : File P I}

/-- What `fileclose` takes from its process. -/
theorem share_close (hl : TableOk r) (h : r.pc = .close f k) (ho : r'.ofile = r.ofile)
    (hst : r'.pc.stale = k.stale) (hrefs : r'.pc.refs = k.refs) :
    share r' g + [f].count g = share r g := by
  rw [share, share, ho, hst, hrefs, h]
  cases k with
  | clear fd =>
    obtain ⟨hf, -⟩ : r.ofile fd = some f ∧ ∀ j < fd, r.ofile j = none := by
      simpa [TableOk, h] using hl
    -- the descriptor itself is no longer counted
    have := slots_swap r.ofile r.ofile (some fd) none fd (fun _ _ => rfl)
      (fun j hj => by simp [Ne.symm hj]) g
    simp only [slot, hf] at this
    simp only [PC.stale, PC.refs, Kont.stale, Kont.refs]
    by_cases hfg : f = g <;> simp_all
  | ret v | put ip => simp [PC.stale, PC.refs, Kont.stale, Kont.refs]
  | close f' =>
    simp only [PC.stale, PC.refs, Kont.stale, Kont.refs, count_cons, count_nil]
    omega

theorem share_with {cwd : Option (Fin I)} {v : Option Nat} (hp : r.pc = pc)
    (hst : pc'.stale = pc.stale) (hrefs : pc'.refs = pc.refs) :
    share ⟨r.ofile, cwd, pc', v⟩ g = share r g := by
  rw [share, share, hp, hst, hrefs]

/-! ## Processes -/

/-- How far the table of a child has been filled. -/
def PC.rest : PC N F K P I → Option (Fin N × Nat)
  | .forkDup np i => some (np, i)
  | .forkStore np i _ => some (np, i)
  | _ => none

structure Family (s : Sys N F K P I) : Prop where
  locals : ∀ p, Local (s.proc p)
  child : ∀ p np, (s.proc p).pc.child = some np → (s.proc np).pc = .embryo
  parent : ∀ p q np, (s.proc p).pc.child = some np → (s.proc q).pc.child = some np → p = q
  rest : ∀ p np i, (s.proc p).pc.rest = some (np, i) → ∀ j : Fin K, i ≤ (j : Nat) →
    (s.proc np).ofile j = none

theorem PC.child_of_rest {i : Nat} (h : pc.rest = some (np, i)) : pc.child = some np := by
  cases pc <;> simp_all [PC.rest, PC.child]

/-- What `r` says about a child, `r₀` has said before. -/
structure Keeps (r₀ r : Proc N F K P I) : Prop where
  child : r.pc.child = r₀.pc.child ∨ r.pc.child = none
  rest : ∀ np i, r.pc.rest = some (np, i) → ∃ j ≤ i, r₀.pc.rest = some (np, j)

theorem Keeps.of_none (h : r'.pc.child = none) : Keeps r r' where
  child := .inr h
  rest np i hr := by rw [PC.child_of_rest hr] at h; cases h

theorem Own.keeps (h : Own r r') : Keeps r r' := by
  refine ⟨.inl h.child, fun np i hr => ?_⟩
  cases h with
  | @forkSkip np' i' h =>
    obtain ⟨rfl, rfl⟩ : np' = np ∧ i' + 1 = i := by simpa [PC.rest] using hr
    exact ⟨i', Nat.le_succ i', by rw [h]; rfl⟩
  | _ => simp [PC.rest] at hr

/-- One process moves. -/
theorem Family.one (h : Family s) (ht : t.proc = update s.proc p r)
    (hp : (s.proc p).pc ≠ .embryo) (hl : Local r) (hk : Keeps (s.proc p) r) : Family t := by
  have hself : t.proc p = r := by rw [ht, update_self]
  have hne : ∀ q, q ≠ p → t.proc q = s.proc q := fun q hq => by rw [ht, update_of_ne hq]
  have hchild : ∀ q np, (t.proc q).pc.child = some np → (s.proc q).pc.child = some np := by
    intro q np hq
    by_cases hqp : q = p
    · subst hqp
      rw [hself] at hq
      rcases hk.child with e | e
      · rwa [← e]
      · rw [e] at hq; cases hq
    · rwa [hne q hqp] at hq
  have hnp : ∀ q np, (s.proc q).pc.child = some np → np ≠ p := by
    rintro q np hq rfl; exact hp (h.child q np hq)
  refine ⟨fun q => ?_, fun q np hq => ?_, fun q q' np hq hq' => ?_, fun q np i hq j hj => ?_⟩
  · by_cases hqp : q = p
    · rwa [hqp, hself]
    · rw [hne q hqp]; exact h.locals q
  · have hq := hchild q np hq
    rw [hne np (hnp q np hq)]; exact h.child q np hq
  · exact h.parent q q' np (hchild q np hq) (hchild q' np hq')
  · have hq' := hchild q np (PC.child_of_rest hq)
    rw [hne np (hnp q np hq')]
    by_cases hqp : q = p
    · subst hqp
      rw [hself] at hq
      obtain ⟨i', hi, hr⟩ := hk.rest np i hq
      exact h.rest q np i' hr j (Nat.le_trans hi hj)
    · rw [hne q hqp] at hq
      exact h.rest q np i hq j hj

/-- What a continuation needs of the table. -/
def KontOk (r : Proc N F K P I) : Kont F K I → Prop
  | .clear fd => ∀ j < fd, r.ofile j = none
  | _ => True

theorem tableOk_resume (h : KontOk r k) : TableOk (r.resume k) := by
  cases k with
  | clear fd => exact h
  | ret v => trivial
  | put ip => trivial
  | close f => trivial

theorem kontOk_close (h : TableOk r) (hp : r.pc = .close f k) : KontOk r k := by
  cases k with
  | clear fd =>
    obtain ⟨-, hz⟩ : r.ofile fd = some f ∧ ∀ j < fd, r.ofile j = none := by
      simpa [TableOk, hp] using h
    exact hz
  | ret v => trivial
  | put ip => trivial
  | close f => trivial

/-- The points between `fileclose` and its continuation. -/
inductive Closing (k : Kont F K I) : PC N F K P I → Prop
  | pipeclose (pi : Fin P) (w : Bool) : Closing k (.pipeclose pi w k)
  | kfree (pi : Fin P) : Closing k (.kfree pi k)
  | iput (ip : Fin I) : Closing k (.iput ip k)

section Closing
variable {k : Kont F K I} {pc : PC N F K P I} (h : Closing k pc)
include h

theorem Closing.stale : pc.stale = k.stale := by cases h <;> rfl
theorem Closing.refs : pc.refs = k.refs := by cases h <;> rfl
theorem Closing.plain : pc.fresh = [] ∧ pc.child = none ∧ pc.alive = true := by
  cases h <;> exact ⟨rfl, rfl, rfl⟩

theorem Closing.kontOk (hp : r.pc = pc) (ht : TableOk r) : KontOk r k := by
  cases h <;> cases k <;> first | trivial | simpa [TableOk, hp, KontOk] using ht

theorem Closing.tableOk (hp : r.pc = pc) (ht : KontOk r k) : TableOk r := by
  cases h <;> cases k <;> simp_all [TableOk, KontOk]

end Closing

theorem local_resume (hl : Local r) (ha : r.pc.alive = true) (hk : KontOk r k) :
    Local (r.resume k) :=
  ⟨tableOk_resume hk, by
    show r.cwd.isSome = (k.pc : PC N F K P I).alive
    rw [hl.cwd, ha, k.pc_plain.2.2.2]⟩

theorem Closing.local (h : Closing k pc) (hl : Local r) (ha : r.pc.alive = true)
    (hk : KontOk r k) : Local { r with pc } :=
  ⟨h.tableOk rfl (by cases k <;> exact hk), by rw [h.plain.2.2]; exact hl.cwd.trans ha⟩

theorem Local.goto (hl : Local r) (ha : r.pc.alive = true)
    (ht : TableOk { r with pc }) (hpc : pc.alive = true) (v : Option Nat) :
    Local { r with pc, ret := v } :=
  ⟨by cases pc <;> exact ht, by rw [hpc]; exact hl.cwd.trans ha⟩

theorem ne_embryo (h : r.pc.alive = true) : r.pc ≠ .embryo := by
  intro e; rw [e] at h; cases h

/-- Two processes move: `p`, and the child it is making. -/
theorem Family.two (h : Family s) (hp : (s.proc p).pc ≠ .embryo) (hpn : p ≠ np)
    (ht : t.proc = update (update s.proc np r') p r) (hl : Local r)
    (hl' : Local r') (hc' : r'.pc.child = none)
    (hother : ∀ q, q ≠ p → (s.proc q).pc.child ≠ some np)
    (hchild : ∀ m, r.pc.child = some m → m = np ∧ r'.pc = .embryo)
    (hrest : ∀ m i, r.pc.rest = some (m, i) → ∀ j : Fin K, i ≤ (j : Nat) → r'.ofile j = none) :
    Family t := by
  have hself : t.proc p = r := by rw [ht, update_self]
  have hnp : t.proc np = r' := by rw [ht, update_of_ne hpn.symm, update_self]
  have hne : ∀ q, q ≠ p → q ≠ np → t.proc q = s.proc q := fun q hq hq' => by
    rw [ht, update_of_ne hq, update_of_ne hq']
  -- a child of somebody else is another process, and not touched
  have hrest' : ∀ q m, q ≠ p → (t.proc q).pc.child = some m →
      (s.proc q).pc.child = some m ∧ t.proc q = s.proc q ∧ t.proc m = s.proc m := by
    intro q m hq hm
    by_cases hqn : q = np
    · subst hqn; rw [hnp, hc'] at hm; cases hm
    · have hm' : (s.proc q).pc.child = some m := by rwa [hne q hq hqn] at hm
      refine ⟨hm', hne q hq hqn, hne m ?_ ?_⟩
      · rintro rfl; exact hp (h.child q m hm')
      · rintro rfl; exact hother q hq hm'
  refine ⟨fun q => ?_, fun q m hq => ?_, fun q q' m hq hq' => ?_, fun q m i hq j hj => ?_⟩
  · by_cases hqp : q = p
    · rwa [hqp, hself]
    · by_cases hqn : q = np
      · rwa [hqn, hnp]
      · rw [hne q hqp hqn]; exact h.locals q
  · by_cases hqp : q = p
    · subst hqp
      rw [hself] at hq
      obtain ⟨rfl, he⟩ := hchild m hq
      rwa [hnp]
    · obtain ⟨hm, -, hmt⟩ := hrest' q m hqp hq
      rw [hmt]; exact h.child q m hm
  · by_cases hqp : q = p <;> by_cases hqp' : q' = p
    · rw [hqp, hqp']
    · subst hqp
      rw [hself] at hq
      obtain ⟨rfl, -⟩ := hchild m hq
      exact absurd (hrest' q' m hqp' hq').1 (hother q' hqp')
    · subst hqp'
      rw [hself] at hq'
      obtain ⟨rfl, -⟩ := hchild m hq'
      exact absurd (hrest' q m hqp hq).1 (hother q hqp)
    · exact h.parent q q' m (hrest' q m hqp hq).1 (hrest' q' m hqp' hq').1
  · by_cases hqp : q = p
    · subst hqp
      rw [hself] at hq
      obtain ⟨rfl, -⟩ := hchild m (PC.child_of_rest hq)
      rw [hnp]; exact hrest m i hq j hj
    · obtain ⟨-, hqt, hmt⟩ := hrest' q m hqp (PC.child_of_rest hq)
      rw [hmt]
      rw [hqt] at hq
      exact h.rest q m i hq j hj

theorem Alloc.plain (h : Alloc pc f pc') : pc.alive = true ∧ pc'.alive = true ∧ pc'.child = none ∧
    ∀ r : Proc N F K P I, TableOk { r with pc := pc' } := by
  cases h <;> exact ⟨rfl, rfl, rfl, fun _ => trivial⟩

/-- A process and the child it is making are two. -/
theorem Family.ne_child (h : Family s) (hc : (s.proc p).pc.child = some np) : p ≠ np := by
  rintro rfl
  rw [h.child p p hc] at hc; cases hc

theorem Family.step (h : Family s) (hn : Next s a t) : Family t := by
  have hmove {u : Sys N F K P I} {p : Fin N} {pc : PC N F K P I} {v : Option Nat}
      (hu : u.proc = s.proc) (ha : (s.proc p).pc.alive = true)
      (ht : TableOk { s.proc p with pc }) (hpc : pc.alive = true) (hc : pc.child = none) :
      Family (u.setProc p { s.proc p with pc, ret := v }) :=
    h.one (by rw [Sys.setProc, hu]) (ne_embryo ha) ((h.locals p).goto ha ht hpc v) (.of_none hc)
  have hresume {u : Sys N F K P I} {p : Fin N} {k : Kont F K I} (hu : u.proc = s.proc)
      (ha : (s.proc p).pc.alive = true) (hk : KontOk (s.proc p) k) :
      Family (u.setProc p ((s.proc p).resume k)) :=
    h.one (by rw [Sys.setProc, hu]) (ne_embryo ha) (local_resume (h.locals p) ha hk)
      (.of_none k.pc_plain.2.1)
  have hclosing {u : Sys N F K P I} {p : Fin N} {k : Kont F K I} {pc : PC N F K P I}
      (hu : u.proc = s.proc) (ha : (s.proc p).pc.alive = true) (hc : Closing k pc)
      (hk : KontOk (s.proc p) k) : Family (u.setProc p { s.proc p with pc }) :=
    h.one (by rw [Sys.setProc, hu]) (ne_embryo ha) (hc.local (h.locals p) ha hk)
      (.of_none hc.plain.2.1)
  cases hn with
  | own _ ho => exact h.one rfl (ne_embryo ho.alive.2) (ho.local (h.locals _)) ho.keeps
  | @fork p np _ hp hn =>
    have hpn : p ≠ np := by rintro rfl; rw [hp] at hn; cases hn
    have hz : ∀ j, (s.proc np).ofile j = none := by
      have := (h.locals np).table
      simpa [TableOk, hn] using this
    have hcwd := (h.locals np).cwd
    have hcwdp := (h.locals p).cwd
    rw [hn] at hcwd
    rw [hp] at hcwdp
    refine h.two (by rw [hp]; rintro ⟨⟩) hpn (proc_embryo hpn) ⟨trivial, hcwdp⟩ ⟨trivial, hcwd⟩ rfl
      (fun q _ hq => ?_) (fun m hm => ?_) fun m i hm j _ => hz j
    · have := h.child q np hq; rw [hn] at this; cases this
    · exact ⟨(Option.some.inj hm).symm, rfl⟩
  | openGet _ hp =>
    exact hmove rfl (by rw [hp]; rfl) (by split <;> trivial) (by split <;> rfl) (by split <;> rfl)
  | alloc _ hal _ =>
    obtain ⟨ha, ha', hc, ht⟩ := hal.plain
    exact hmove rfl ha (ht _) ha' hc
  | openSet _ hp | openPut _ hp | pipeSetup _ hp _ =>
    exact hmove rfl (by rw [hp]; rfl) trivial rfl rfl
  | @dup p _ _ _ hd _ =>
    cases hd with
    | dup hp => exact hmove rfl (by rw [hp]; rfl) trivial rfl rfl
    | @fork np i hp hf =>
      have ha : (s.proc p).pc.alive = true := by rw [hp]; rfl
      refine h.one rfl (ne_embryo ha) ⟨trivial, (h.locals _).cwd.trans ha⟩
        ⟨.inl (by rw [hp]; rfl), fun m j hm => ?_⟩
      obtain ⟨rfl, rfl⟩ : np = m ∧ (i : Nat) = j := by simpa [PC.rest] using hm
      exact ⟨i, Nat.le_refl _, by rw [hp]; rfl⟩
  | drop _ hp _ | lastNone _ hp _ _ =>
    exact hresume rfl (by rw [hp]; rfl) (kontOk_close (h.locals _).table hp)
  | lastPipe _ hp _ _ =>
    exact hclosing rfl (by rw [hp]; rfl) (.pipeclose _ _) (kontOk_close (h.locals _).table hp)
  | lastInode _ hp _ _ =>
    exact hclosing rfl (by rw [hp]; rfl) (.iput _) (kontOk_close (h.locals _).table hp)
  | pipeclose _ hp _ _ =>
    exact hresume rfl (by rw [hp]; rfl) ((Closing.pipeclose _ _).kontOk hp (h.locals _).table)
  | pipeLast _ hp _ _ =>
    exact hclosing rfl (by rw [hp]; rfl) (.kfree _)
      ((Closing.pipeclose _ _).kontOk hp (h.locals _).table)
  | kfree _ hp _ =>
    exact hresume rfl (by rw [hp]; rfl) ((Closing.kfree _).kontOk hp (h.locals _).table)
  | iput _ hp =>
    exact hresume rfl (by rw [hp]; rfl) ((Closing.iput _).kontOk hp (h.locals _).table)
  | @forkStore p np i f _ hp =>
    have hc : (s.proc p).pc.child = some np := by rw [hp]; rfl
    have hpn := h.ne_child hc
    have he := h.child p np hc
    have hcwd := (h.locals np).cwd
    have hcwdp := (h.locals p).cwd
    rw [he] at hcwd
    rw [hp] at hcwdp
    refine h.two (by rw [hp]; rintro ⟨⟩) hpn (proc_forkDup hpn _ _) ⟨trivial, hcwdp⟩
      ⟨?_, by rwa [he]⟩
      (by rw [he]; rfl) (fun q hq hqc => hq (h.parent q p np hqc hc))
      (fun m hm => ⟨(Option.some.inj hm).symm, he⟩) fun m j hm l hl => ?_
    · simp [TableOk, he]
    · obtain ⟨-, rfl⟩ : np = m ∧ (i : Nat) + 1 = j := by simpa [PC.rest] using hm
      have hli : l ≠ i := by rintro rfl; omega
      show update (s.proc np).ofile i (some f) l = none
      rw [update_of_ne hli]
      exact h.rest p np i (by rw [hp]; rfl) l (by omega)
  | @forkCwd p np ip _ hp hcw =>
    have hc : (s.proc p).pc.child = some np := by rw [hp]; rfl
    have hpn := h.ne_child hc
    have hcwdp := (h.locals p).cwd
    rw [hp] at hcwdp
    exact h.two (by rw [hp]; rintro ⟨⟩) hpn (proc_forkCwd hpn _) ⟨trivial, hcwdp⟩ ⟨trivial, rfl⟩ rfl
      (fun q hq hqc => hq (h.parent q p np hqc hc)) (by rintro _ ⟨⟩) (by rintro _ _ ⟨⟩)
  | @exitCwd p _ _ hp _ =>
    have hz := (h.locals p).table
    rw [TableOk, hp] at hz
    exact h.one rfl (by rw [hp]; rintro ⟨⟩) ⟨hz, rfl⟩ (.of_none rfl)
  | @reap q _ hq =>
    have hz := (h.locals q).table
    have hcwd := (h.locals q).cwd
    rw [TableOk, hq] at hz
    rw [hq] at hcwd
    exact h.one rfl (by rw [hq]; rintro ⟨⟩) ⟨hz, hcwd⟩ (.of_none rfl)
  | _ => exact ⟨h.locals, h.child, h.parent, h.rest⟩

/-! ## Files -/

structure Books (s : Sys N F K P I) : Prop where
  count : ∀ f, (s.file f).ref = total (share · f) s
  free : ∀ f, (s.file f).ref = 0 → (s.file f).type = .none
  typed : ∀ f, (s.file f).type ≠ .none → (s.file f).obj ≠ none
  fresh : ∀ p f, f ∈ (s.proc p).pc.fresh → (s.file f).ref = 1 ∧ (s.file f).type = .none

/-- Who is setting up a file has it. -/
theorem share_fresh (ht : TableOk r) (hf : f ∈ r.pc.fresh) : 1 ≤ share r f := by
  cases hp : r.pc with
  | openSet g fd o =>
    rw [hp] at hf
    obtain rfl : f = g := by simpa [PC.fresh] using hf
    have hfd : r.ofile fd = some f := by simpa [TableOk, hp] using ht
    have : slot (r.ofile fd) (none = some fd) f ≤ slots r.ofile none f :=
      Finset.single_le_sum (f := fun j => slot (r.ofile j) (none = some j) f)
        (fun _ _ => Nat.zero_le _) (Finset.mem_univ fd)
    simp only [slot, hfd] at this
    rw [share, hp]
    exact Nat.le_add_right_of_le (by simpa [PC.stale] using this)
  | openFd g o | pipeF1 g => simp_all [PC.fresh, share, PC.refs]
  | pipeMem f0 f1 =>
    rw [hp] at hf
    rw [share, hp]
    exact Nat.le_add_left_of_le (count_pos_iff.mpr hf)
  | _ => simp_all [PC.fresh]

theorem share_slot {fd : Fin K} (hf : r.ofile fd = some f) (hst : r.pc.stale ≠ some fd) :
    1 ≤ share r f := by
  have : slot (r.ofile fd) (r.pc.stale = some fd) f ≤ slots r.ofile r.pc.stale f :=
    Finset.single_le_sum (f := fun j => slot (r.ofile j) (r.pc.stale = some j) f)
      (fun _ _ => Nat.zero_le _) (Finset.mem_univ fd)
  simp only [slot, hf, hst, not_false_eq_true, and_self, if_true] at this
  exact Nat.le_add_right_of_le this

section
variable (h : Books s)
include h

section
variable (hF : Family s)
include hF

/-- A file that another process is setting up is not one that `p` has. -/
theorem Books.ne_fresh (hqp : q ≠ p) (hq : f ∈ (s.proc q).pc.fresh)
    (hp : 1 ≤ share (s.proc p) g) : f ≠ g := by
  rintro rfl
  have h1 := share_fresh (hF.locals q).table hq
  have h2 := add_le_total (share · f) s hqp
  have h3 := h.count f
  have h4 := (h.fresh q f hq).1
  omega

section
variable (ht : t.proc = update s.proc p r)
include ht

/-- One process moves, and files change that it has, or nobody. -/
theorem Books.set (hcount : ∀ f, (t.file f).ref + share (s.proc p) f = (s.file f).ref + share r f)
    (hfile : ∀ f, t.file f = s.file f ∨ (1 ≤ share (s.proc p) f ∨ (s.file f).ref = 0) ∧
      ((t.file f).ref = 0 → (t.file f).type = .none) ∧
      ((t.file f).type ≠ .none → (t.file f).obj ≠ none))
    (hfresh : ∀ f ∈ r.pc.fresh, (t.file f).ref = 1 ∧ (t.file f).type = .none) : Books t := by
  refine ⟨fun f => ?_, fun f => ?_, fun f => ?_, fun q f hq => ?_⟩
  · have hsum := total_update (share · f) ht
    have := h.count f
    have := hcount f
    omega
  · rcases hfile f with he | ⟨-, hfree, -⟩
    · rw [he]; exact h.free f
    · exact hfree
  · rcases hfile f with he | ⟨-, -, htyped⟩
    · rw [he]; exact h.typed f
    · exact htyped
  · by_cases hqp : q = p
    · subst hqp
      rw [ht, update_self] at hq
      exact hfresh f hq
    rw [ht, update_of_ne hqp] at hq
    have hf := h.fresh q f hq
    rcases hfile f with he | ⟨hp | h0, -⟩
    · rwa [he]
    · exact absurd rfl (h.ne_fresh hF hqp hq hp)
    · omega

/-- One process moves, and a file gains `c` references of it or loses `d`. -/
theorem Books.one {c d : Nat} (hfile : t.file = update s.file f v)
    (hhas : 1 ≤ share (s.proc p) f ∨ (s.file f).ref = 0)
    (hshare : ∀ g, share r g + d * [f].count g = share (s.proc p) g + c * [f].count g)
    (hv : v.ref + d = (s.file f).ref + c)
    (hfree : v.ref = 0 → v.type = .none) (htyped : v.type ≠ .none → v.obj ≠ none)
    (hfresh : ∀ g ∈ r.pc.fresh, g = f ∧ v.ref = 1 ∧ v.type = .none ∨
      g ≠ f ∧ g ∈ (s.proc p).pc.fresh) : Books t := by
  have hself : t.file f = v := by rw [hfile, update_self]
  have hne : ∀ g, g ≠ f → t.file g = s.file g := fun g hg => by rw [hfile, update_of_ne hg]
  refine h.set hF ht (fun g => ?_) (fun g => ?_) fun g hg => ?_
  · have := hshare g
    by_cases hg : g = f
    · subst hg
      rw [count_singleton_self] at this
      rw [hself]
      omega
    · rw [count_eq_zero_of_not_mem (by simpa using hg)] at this
      rw [hne g hg]
      omega
  · by_cases hg : g = f
    · rw [hg, hself]; exact .inr ⟨hhas, hfree, htyped⟩
    · exact .inl (hne g hg)
  · rcases hfresh g hg with ⟨rfl, h1⟩ | ⟨hg, h1⟩
    · rwa [hself]
    · rw [hne g hg]; exact h.fresh p g h1

/-- One process moves and no file changes. -/
theorem Books.move (hf : t.file = s.file) (hshare : ∀ f, share r f = share (s.proc p) f)
    (hfresh : r.pc.fresh ⊆ (s.proc p).pc.fresh) : Books t :=
  h.set hF ht (fun f => by rw [hf, hshare]) (fun f => .inl (congrFun hf f)) fun f hr => by
    rw [hf]; exact h.fresh p f (hfresh hr)

/-- A call sets up its fresh files. -/
theorem Books.setup (hshare : ∀ f, share r f = share (s.proc p) f) (hfresh : r.pc.fresh = [])
    (hfile : ∀ f, t.file f = s.file f ∨ f ∈ (s.proc p).pc.fresh ∧
      (t.file f).ref = (s.file f).ref ∧ (t.file f).obj ≠ none) : Books t := by
  refine h.set hF ht (fun f => ?_) (fun f => ?_) (by rw [hfresh]; nofun)
  · rw [hshare]
    rcases hfile f with he | ⟨-, he, -⟩ <;> rw [he]
  · refine (hfile f).imp_right fun ⟨hf, href, hobj⟩ => ?_
    have := (h.fresh p f hf).1
    exact ⟨.inl (share_fresh (hF.locals p).table hf), fun h0 => by omega, fun _ => hobj⟩

end

end

/-- A reference goes from one process to another. -/
theorem Books.two (hpn : p ≠ np)
    (ht : t.proc = update (update s.proc np r') p r) (hf : t.file = s.file)
    (hshare : ∀ f, share r f + share r' f = share (s.proc p) f + share (s.proc np) f)
    (hfresh : r.pc.fresh = []) (hfresh' : r'.pc.fresh = []) : Books t := by
  refine ⟨fun f => ?_, by rw [hf]; exact h.free, by rw [hf]; exact h.typed, fun q f hq => ?_⟩
  · have := total_update₂ (share · f) hpn ht
    have := hshare f
    have := h.count f
    rw [hf]
    omega
  · rw [hf]
    by_cases hqp : q = p
    · subst hqp; rw [ht, update_self, hfresh] at hq; exact absurd hq not_mem_nil
    · rw [ht, update_of_ne hqp] at hq
      by_cases hqn : q = np
      · subst hqn; rw [update_self, hfresh'] at hq; exact absurd hq not_mem_nil
      · rw [update_of_ne hqn] at hq; exact h.fresh q f hq

end

/-- What `filealloc` gives to its caller. -/
theorem Alloc.share (h : Alloc r.pc f pc) (g : Fin F) :
    share { r with pc } g = share r g + [f].count g := by
  generalize hp : r.pc = pc0 at h
  cases h with
  | «open» o | pipe0 => simp [Files.share, hp, PC.stale, PC.refs]
  | pipe1 f0 =>
    simp only [Files.share, hp, PC.stale, PC.refs, count_cons, count_nil]
    omega

theorem Alloc.fresh (h : Alloc pc f pc') : ∀ g ∈ pc'.fresh, g = f ∨ g ∈ pc.fresh := by
  cases h <;> simp [PC.fresh]

/-- What `filedup` gives to its caller, who has the file already. -/
theorem Dup.share (ht : TableOk r) (h : Dup r f r') :
    (∀ g, share r' g = share r g + [f].count g) ∧ 1 ≤ share r f ∧ r'.pc.fresh = [] := by
  cases h with
  | @dup fd hp =>
    obtain ⟨hfd, fd', hne, hfd'⟩ : r.ofile fd = some f ∧ ∃ fd', fd' ≠ fd ∧ r.ofile fd' = some f := by
      simpa [TableOk, hp] using ht
    refine ⟨fun g => ?_, share_slot hfd' ?_, rfl⟩
    · have := slots_swap r.ofile r.ofile none (some fd) fd (fun _ _ => rfl)
        (fun j hj => by simp [Ne.symm hj]) g
      simp only [slot, hfd] at this
      simp only [Files.share, hp, PC.stale, PC.refs, count_nil]
      by_cases hfg : f = g <;> simp_all
    · rw [hp]; simpa [PC.stale] using hne.symm
  | fork hp hf =>
    refine ⟨fun g => ?_, share_slot hf (by rw [hp]; rintro ⟨⟩), rfl⟩
    simp [Files.share, hp, PC.stale, PC.refs]

theorem share_of_close (ht : TableOk r) (h : r.pc = .close f k) : 1 ≤ share r f := by
  have : share (r.resume k) f + [f].count f = share r f :=
    share_close ht h rfl k.pc_stale k.pc_refs
  simp only [count_singleton_self] at this
  omega

/-- A file loses a reference of `p`. -/
theorem Books.close (h : Books s) (hF : Family s) (hp : (s.proc p).pc = .close f k)
    (ht : t.proc = update s.proc p r) (hfile : t.file = update s.file f v)
    (ho : r.ofile = (s.proc p).ofile) (hst : r.pc.stale = k.stale) (hrefs : r.pc.refs = k.refs)
    (hfresh : r.pc.fresh = []) (hv : v.ref + 1 = (s.file f).ref)
    (hfree : v.ref = 0 → v.type = .none) (htyped : v.type ≠ .none → v.obj ≠ .none) : Books t := by
  have hl := (hF.locals p).table
  refine h.one (c := 0) hF ht hfile (.inl (share_of_close hl hp)) (fun g => ?_) hv hfree
    htyped (by rw [hfresh]; nofun)
  have : share r g + [f].count g = share (s.proc p) g := share_close hl hp ho hst hrefs
  omega

theorem Books.step (h : Books s) (hF : Family s) (hn : Next s a t) : Books t := by
  have hclosing {u : Sys N F K P I} {p : Fin N} {k : Kont F K I} {pc : PC N F K P I}
      (hu : u.proc = s.proc) (hf : u.file = s.file) (hp : (s.proc p).pc = pc) (hc : Closing k pc) :
      Books (u.setProc p ((s.proc p).resume k)) := by
    refine h.move (r := (s.proc p).resume k) hF (by rw [Sys.setProc, hu]) hf
      (fun _ => share_with hp ?_ ?_) ?_
    · rw [hc.stale]; exact k.pc_stale
    · rw [hc.refs]; exact k.pc_refs
    · show (k.pc : PC N F K P I).fresh ⊆ _
      rw [k.pc_plain.1]; exact nil_subset _
  cases hn with
  | own _ ho => exact h.move hF rfl rfl (ho.share (hF.locals _).table) ho.fresh
  | @fork p np _ hp hn =>
    have hpn : p ≠ np := by rintro rfl; rw [hp] at hn; cases hn
    refine h.two hpn (proc_embryo hpn) rfl (fun f => congrArg₂ (· + ·) ?_ ?_) rfl rfl
    · exact share_with hp rfl rfl
    · exact share_with hn rfl rfl
  | openGet _ hp =>
    refine h.move hF rfl rfl (fun _ => share_with hp ?_ ?_) ?_
    · split <;> rfl
    · split <;> rfl
    · rw [hp]; split <;> exact nil_subset _
  | @alloc p f pc _ hal hf =>
    have htype := h.free f hf
    refine h.one (c := 1) (d := 0) hF rfl rfl (.inr hf) (fun g => ?_) (by rw [hf]) (by rintro ⟨⟩)
      (absurd htype) fun g hg => ?_
    · have : share { s.proc p with pc } g = _ := Alloc.share hal g
      show share { s.proc p with pc } g + _ = _
      omega
    · by_cases hgf : g = f
      · exact .inl ⟨hgf, rfl, htype⟩
      · exact .inr ⟨hgf, (hal.fresh g hg).resolve_left hgf⟩
  | @openSet p f fd o _ hp =>
    refine h.setup hF rfl (fun _ => share_with hp rfl rfl) rfl fun g => ?_
    rcases eq_or_ne g f with rfl | hg
    · refine .inr ⟨by rw [hp]; exact mem_singleton_self g, ?_⟩
      rw [show ((s.setFile g ((s.file g).open o)).ret p (some ↑fd)).file g = _ from update_self ..]
      exact ⟨rfl, by cases hd : o.device <;> simp [File.obj, File.open, hd]⟩
    · exact .inl (update_of_ne hg ..)
  | openPut _ hp | pipeLast _ hp _ _ | exitCwd _ hp _ =>
    exact h.move hF rfl rfl (fun _ => share_with hp rfl rfl)
      (nil_subset _)
  | @dup p f r _ hd hf =>
    obtain ⟨hsh, hhas, hfresh⟩ := hd.share (hF.locals p).table
    exact h.one (d := 0) hF rfl rfl (.inl hhas) (fun g => by rw [hsh]; omega) rfl (by rintro ⟨⟩)
      (h.typed f) (by rw [hfresh]; rintro _ ⟨⟩)
  | drop _ hp hf =>
    exact h.close hF hp rfl rfl rfl (Kont.pc_stale _) (Kont.pc_refs _) (Kont.pc_plain _).1
      (show _ - 1 + 1 = _ by omega) (fun h0 => by simp only at h0; omega) (h.typed _)
  | lastNone _ hp hf _ =>
    exact h.close hF hp rfl rfl rfl (Kont.pc_stale _) (Kont.pc_refs _) (Kont.pc_plain _).1
      hf.symm (fun _ => rfl) (absurd rfl)
  | lastPipe _ hp hf _ | lastInode _ hp hf _ =>
    exact h.close hF hp rfl rfl rfl rfl rfl rfl hf.symm (fun _ => rfl) (absurd rfl)
  | closeFault _ _ ht ho => exact absurd ho (h.typed _ ht)
  | pipeclose _ hp _ _ => exact hclosing rfl rfl hp (.pipeclose _ _)
  | kfree _ hp _ => exact hclosing rfl rfl hp (.kfree _)
  | iput _ hp => exact hclosing rfl rfl hp (.iput _)
  | @pipeSetup p f0 f1 pi _ hp _ =>
    refine h.setup hF rfl (fun _ => share_with hp rfl rfl) rfl fun g => ?_
    by_cases hg : g = f0 ∨ g = f1
    · refine .inr ⟨by rw [hp]; simpa [PC.fresh] using hg, ?_⟩
      show ((Files.pipeSetup s f0 f1 pi).file g).ref = _ ∧
        ((Files.pipeSetup s f0 f1 pi).file g).obj ≠ none
      by_cases h1 : g = f1
      · subst h1
        simp [Files.pipeSetup, Sys.setFile, File.obj]
      · obtain rfl : g = f0 := hg.resolve_right h1
        simp [Files.pipeSetup, Sys.setFile, File.obj, h1]
    · obtain ⟨h0, h1⟩ := not_or.mp hg
      exact .inl ((update_of_ne h1 ..).trans (update_of_ne h0 ..))
  | @forkStore p np i f _ hp =>
    have hnp := hF.child p np (by rw [hp]; rfl)
    have hpn : p ≠ np := by rintro rfl; rw [hp] at hnp; cases hnp
    have hi := hF.rest p np i (by rw [hp]; rfl) i (Nat.le_refl _)
    refine h.two hpn (proc_forkDup hpn _ _) rfl (fun g => ?_) rfl (by rw [hnp]; rfl)
    simp only [share, hp, hnp, PC.stale, PC.refs, slots_fill hi, count_nil]
    omega
  | @forkCwd p np ip _ hp _ =>
    have hnp := hF.child p np (by rw [hp]; rfl)
    have hpn : p ≠ np := by rintro rfl; rw [hp] at hnp; cases hnp
    exact h.two hpn (proc_forkCwd hpn _) rfl (fun g => congrArg₂ (· + ·) (share_with hp rfl rfl)
      (share_with hnp rfl rfl)) rfl rfl
  | reap _ hq =>
    exact h.move hF rfl rfl (fun _ => share_with hq rfl rfl)
      (nil_subset _)
  | _ => exact ⟨h.count, h.free, h.typed, h.fresh⟩

end Xv6.Files
