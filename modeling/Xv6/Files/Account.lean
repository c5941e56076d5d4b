/-
# `Xv6.Files.Account` — what a process has at each point of a call

`PC.refs` are the references to open files that a call holds in its variables,
`PC.objs` the references to inodes and the pipe ends it still has to close.
`share r f` counts all that process has of `f`: the descriptors that point to it
and the references in its call.

Two stores are out of step with the count.  `sys_dup` fills the new descriptor
before `filedup`, and `exit` clears a descriptor after `fileclose`.  `PC.stale`
names such a descriptor; `share` leaves it out.

`Own r r'` are the steps that touch nothing but the process itself.
-/
import Mathlib.Algebra.Order.BigOperators.Group.Finset
import Xv6.Files.Machine
import Xv6.Lib.Ledger

namespace Xv6.Files

open Machine Function

variable {N F K P I : Nat}

/-! ## Accounts -/

/-- What a reference of an open file is for. -/
inductive Obj (P I : Nat)
  | pipe (pi : Fin P) (writable : Bool)
  | inode (ip : Fin I)
  deriving DecidableEq, Repr

def File.obj (f : File P I) : Option (Obj P I) := match f.type with
  | .none => none
  | .pipe => f.pipe.map (.pipe · f.writable)
  | .inode | .device => f.ip.map .inode

def Kont.refs : Kont F K I → List (Fin F)
  | .close f => [f]
  | _ => []

def Kont.objs : Kont F K I → List (Obj P I)
  | .put ip => [.inode ip]
  | _ => []

def Kont.stale : Kont F K I → Option (Fin K)
  | .clear fd => some fd
  | _ => none

/-- The references a call has in its variables. -/
def PC.refs : PC N F K P I → List (Fin F)
  | .openFd f _ => [f]
  -- `exit` closes what its descriptor has
  | .close _ (.clear _) => []
  | .close f k => f :: k.refs
  | .pipeclose _ _ k | .kfree _ k | .iput _ k => k.refs
  | .pipeF1 f0 => [f0]
  | .pipeMem f0 f1 | .pipeFd0 f0 f1 => [f0, f1]
  | .pipeFd1 _ f1 _ => [f1]
  | .forkStore _ _ f => [f]
  | _ => []

/-- The pipe ends and inodes a call has in its variables. -/
def PC.objs : PC N F K P I → List (Obj P I)
  | .openFile o | .openFd _ o | .openSet _ _ o => [.inode o.ip]
  | .openPut ip => [.inode ip]
  | .close _ k | .kfree _ k => k.objs
  | .pipeclose pi w k => .pipe pi w :: k.objs
  | .iput ip k => .inode ip :: k.objs
  | _ => []

/-- The descriptor that is not, or not any more, counted. -/
def PC.stale : PC N F K P I → Option (Fin K)
  | .dupRef _ fd => some fd
  | .pipeclose _ _ k | .kfree _ k | .iput _ k => k.stale
  | .clear fd => some fd
  | _ => none

/-- The files that are still to be set up. -/
def PC.fresh : PC N F K P I → List (Fin F)
  | .openFd f _ | .openSet f _ _ | .pipeF1 f => [f]
  | .pipeMem f0 f1 => [f0, f1]
  | _ => []

/-- The page a process is about to free. -/
def PC.freeing : PC N F K P I → Option (Fin P)
  | .kfree pi _ => some pi
  | _ => none

/-- The child a `fork` is making. -/
def PC.child : PC N F K P I → Option (Fin N)
  | .forkDup np _ | .forkStore np _ _ | .forkCwd np => some np
  | _ => none

/-- The process has a current directory. -/
def PC.alive : PC N F K P I → Bool
  | .unused | .embryo | .zombie => false
  | _ => true

/-- One descriptor counts for `f`. -/
def slot (o : Option (Fin F)) (loose : Prop) [Decidable loose] (f : Fin F) : Nat :=
  if o = some f ∧ ¬ loose then 1 else 0

def slots (ofile : Fin K → Option (Fin F)) (stale : Option (Fin K)) (f : Fin F) : Nat :=
  ∑ fd, slot (ofile fd) (stale = some fd) f

/-- What a process has of `f`. -/
def share (r : Proc N F K P I) (f : Fin F) : Nat := slots r.ofile r.pc.stale f + r.pc.refs.count f

/-! ## Tables that differ in one descriptor -/

theorem slots_swap (o o' : Fin K → Option (Fin F)) (st st' : Option (Fin K)) (fd : Fin K)
    (ho : ∀ j, j ≠ fd → o j = o' j) (hst : ∀ j, j ≠ fd → (st = some j ↔ st' = some j)) (f : Fin F) :
    slots o st f + slot (o' fd) (st' = some fd) f = slots o' st' f + slot (o fd) (st = some fd) f := by
  have hj : ∀ j, j ≠ fd → slot (o j) (st = some j) f = slot (o' j) (st' = some j) f := fun j hj => by
    simp only [slot, ho j hj, hst j hj]
  exact sum_swap fd hj

/-- A free descriptor is filled, and counted. -/
theorem slots_fill {o : Fin K → Option (Fin F)} {fd : Fin K} (h : o fd = none) (g f : Fin F) :
    slots (update o fd (some g)) none f = slots o none f + [g].count f := by
  have := slots_swap (update o fd (some g)) o none none fd
  simp only [slot, update_self, h] at this
  by_cases hg : g = f <;> simp_all

/-- A descriptor is cleared. -/
theorem slots_clear {o : Fin K → Option (Fin F)} {fd : Fin K} {g : Fin F} (h : o fd = some g)
    (f : Fin F) : slots (update o fd none) none f + [g].count f = slots o none f := by
  have := slots_swap (update o fd none) o none none fd
    (fun j hj => update_of_ne hj ..) (fun _ _ => Iff.rfl) f
  simp only [slot, update_self, h] at this
  by_cases hg : g = f <;> simp_all

/-! ## Descriptor tables and program points -/

/-- The descriptors a call relies on. -/
def TableOk (r : Proc N F K P I) : Prop := match r.pc with
  | .unused | .zombie | .exitCwd => ∀ fd, r.ofile fd = none
  | .openSet f fd _ => r.ofile fd = some f
  | .dupRef f fd => r.ofile fd = some f ∧ ∃ fd', fd' ≠ fd ∧ r.ofile fd' = some f
  | .close f (.clear fd) => r.ofile fd = some f ∧ ∀ j < fd, r.ofile j = none
  | .pipeclose _ _ (.clear fd) | .kfree _ (.clear fd) | .iput _ (.clear fd) | .clear fd =>
    ∀ j < fd, r.ofile j = none
  | .pipeFd1 f0 _ fd0 => r.ofile fd0 = some f0
  | .pipeCopy f0 f1 fd0 fd1 => r.ofile fd0 = some f0 ∧ r.ofile fd1 = some f1 ∧ fd0 ≠ fd1
  | .exitFd i => ∀ j : Fin K, j < i → r.ofile j = none
  | _ => True

structure Local (r : Proc N F K P I) : Prop where
  table : TableOk r
  cwd : r.cwd.isSome = r.pc.alive

/-! ## Private steps -/

inductive Own (r : Proc N F K P I) : Proc N F K P I → Prop
  | fail (h : r.pc = .run) : Own r { r with pc := .run, ret := none }
  | dup {f fd fd'} (h : r.pc = .run) (hf : r.ofile fd' = some f)
      (hfd : r.ofile fd = none) :
      Own r { r with ofile := update r.ofile fd (some f), pc := .dupRef f fd }
  | close {f fd} (h : r.pc = .run) (hf : r.ofile fd = some f) :
      Own r { r with ofile := update r.ofile fd none, pc := .close f (.ret (some 0)) }
  | pipe (h : r.pc = .run) : Own r { r with pc := .pipeF0 }
  | exit (h : r.pc = .run) : Own r { r with pc := .exitFd 0 }
  | openNoFile {o} (h : r.pc = .openFile o) : Own r { r with pc := .openPut o.ip }
  | openFd {f o fd} (h : r.pc = .openFd f o)
      (hfd : r.ofile fd = none) :
      Own r { r with ofile := update r.ofile fd (some f), pc := .openSet f fd o }
  | openNoFd {f o} (h : r.pc = .openFd f o) : Own r { r with pc := .close f (.put o.ip) }
  | pipeNoF0 (h : r.pc = .pipeF0) : Own r { r with pc := .run, ret := none }
  | pipeNoF1 {f0} (h : r.pc = .pipeF1 f0) : Own r { r with pc := .close f0 (.ret none) }
  | pipeNoMem {f0 f1} (h : r.pc = .pipeMem f0 f1) : Own r { r with pc := .close f0 (.close f1) }
  | pipeFd0 {f0 f1 fd} (h : r.pc = .pipeFd0 f0 f1) (hfd : r.ofile fd = none) :
      Own r { r with ofile := update r.ofile fd (some f0), pc := .pipeFd1 f0 f1 fd }
  | pipeNoFd0 {f0 f1} (h : r.pc = .pipeFd0 f0 f1) : Own r { r with pc := .close f0 (.close f1) }
  | pipeFd1 {f0 f1 fd0 fd} (h : r.pc = .pipeFd1 f0 f1 fd0)
      (hfd : r.ofile fd = none) :
      Own r { r with ofile := update r.ofile fd (some f1), pc := .pipeCopy f0 f1 fd0 fd }
  | pipeNoFd1 {f0 f1 fd0} (h : r.pc = .pipeFd1 f0 f1 fd0) :
      Own r { r with ofile := update r.ofile fd0 none, pc := .close f0 (.close f1) }
  | pipeOk {f0 f1 fd0 fd1} (h : r.pc = .pipeCopy f0 f1 fd0 fd1) :
      Own r { r with pc := .run, ret := some 0 }
  | pipeBad {f0 f1 fd0 fd1} (h : r.pc = .pipeCopy f0 f1 fd0 fd1) : Own r { r with
        ofile := update (update r.ofile fd0 none) fd1 none
        pc := .close f0 (.close f1) }
  | forkSkip {np i} (h : r.pc = .forkDup np i) : Own r { r with pc := .forkDup np (i + 1) }
  | forkLast {np i} (h : r.pc = .forkDup np i) : Own r { r with pc := .forkCwd np }
  | exitSkip {i : Fin K} (h : r.pc = .exitFd i) (hi : r.ofile i = none) :
      Own r { r with pc := .exitFd (i + 1) }
  | exitClose {i : Fin K} {f} (h : r.pc = .exitFd i) (hi : r.ofile i = some f) :
      Own r { r with pc := .close f (.clear i) }
  | exitLast {i} (h : r.pc = .exitFd i) (hi : ¬ i < K) : Own r { r with pc := .exitCwd }
  | clear {fd} (h : r.pc = .clear fd) :
      Own r { r with ofile := update r.ofile fd none, pc := .exitFd (fd + 1) }

variable {r r' : Proc N F K P I}

theorem Own.objs (h : Own r r') : r'.pc.objs = r.pc.objs := by
  cases h <;> simp [*, PC.objs, Kont.objs]

theorem Own.freeing (h : Own r r') : r'.pc.freeing = none ∧ r.pc.freeing = none := by
  cases h <;> simp [*, PC.freeing]

theorem Own.child (h : Own r r') : r'.pc.child = r.pc.child := by
  cases h <;> simp [*, PC.child]

theorem Own.alive (h : Own r r') : r'.pc.alive = true ∧ r.pc.alive = true := by
  cases h <;> simp [*, PC.alive]

theorem Own.cwd (h : Own r r') : r'.cwd = r.cwd := by
  cases h <;> rfl

theorem Own.fresh (h : Own r r') : r'.pc.fresh ⊆ r.pc.fresh := by
  cases h <;> simp [*, PC.fresh]

/-- References go from the variables into the table and back. -/
theorem Own.share (hl : TableOk r) (h : Own r r') (g : Fin F) : share r' g = share r g := by
  cases h with
  | @dup f fd fd' h hf hfd =>
    -- the new descriptor is not counted yet
    have := slots_swap (update r.ofile fd (some f)) r.ofile (some fd) none fd
      (fun j hj => update_of_ne hj ..) (fun j hj => by simp [Ne.symm hj]) g
    simp only [slot, update_self, hfd] at this
    simp only [Files.share, h, PC.stale, PC.refs]
    simpa using this
  | close h hf =>
    have := slots_clear hf g
    simp only [Files.share, h, PC.stale, PC.refs, Kont.refs]
    simpa using this
  | openFd h hfd | pipeFd1 h hfd =>
    simp only [Files.share, h, PC.stale, PC.refs]
    rw [slots_fill hfd]; rfl
  | pipeFd0 h hfd =>
    simp only [Files.share, h, PC.stale, PC.refs]
    rw [slots_fill hfd, Nat.add_assoc, ← List.count_append]; rfl
  | @pipeNoFd1 f0 f1 fd0 h =>
    have ho : r.ofile fd0 = some f0 := by simpa [TableOk, h] using hl
    have := slots_clear ho g
    simp only [Files.share, h, PC.stale, PC.refs, Kont.refs, List.count_cons, List.count_nil] at this ⊢
    omega
  | @pipeBad f0 f1 fd0 fd1 h =>
    obtain ⟨h0, h1, hne⟩ : r.ofile fd0 = some f0 ∧ r.ofile fd1 = some f1 ∧ fd0 ≠ fd1 := by
      simpa [TableOk, h] using hl
    have e0 := slots_clear h0 g
    have e1 := slots_clear (o := update r.ofile fd0 none)
      ((update_of_ne (Ne.symm hne) ..).trans h1) g
    simp only [Files.share, h, PC.stale, PC.refs, Kont.refs, List.count_cons, List.count_nil]
      at e0 e1 ⊢
    omega
  | exitClose h hi => simp [Files.share, h, PC.stale, PC.refs]
  | @clear fd h =>
    have := slots_swap (update r.ofile fd none) r.ofile none (some fd) fd
      (fun j hj => update_of_ne hj ..) (fun j hj => by simp [Ne.symm hj]) g
    simp only [slot, update_self] at this
    simp only [Files.share, h, PC.stale, PC.refs]
    simpa using this
  | _ => simp [*, Files.share, PC.stale, PC.refs, Kont.refs]

theorem Own.local (hl : Local r) (h : Own r r') : Local r' := by
  refine ⟨?_, by rw [h.cwd, hl.cwd, h.alive.1, h.alive.2]⟩
  have htab := hl.table
  cases h with
  | @dup f fd fd' h hf hfd =>
    have hne : fd' ≠ fd := by rintro rfl; rw [hf] at hfd; cases hfd
    exact ⟨update_self .., fd', hne, by simpa [hne] using hf⟩
  | openFd h hfd | pipeFd0 h hfd => exact update_self ..
  | @pipeFd1 f0 f1 fd0 fd h hfd =>
    have h0 : r.ofile fd0 = some f0 := by simpa [TableOk, h] using htab
    have hne : fd0 ≠ fd := by rintro rfl; rw [h0] at hfd; cases hfd
    exact ⟨by simpa [hne] using h0, update_self .., hne⟩
  | exit h => exact fun j hj => absurd hj (Nat.not_lt_zero _)
  | @exitSkip i h hi =>
    have hz : ∀ j : Fin K, (j : Nat) < i → r.ofile j = none := by simpa [TableOk, h] using htab
    intro j hj
    rcases Nat.lt_succ_iff_lt_or_eq.mp hj with hj | hj
    · exact hz j hj
    · rwa [Fin.ext hj]
  | @exitClose i f h hi =>
    have hz : ∀ j : Fin K, (j : Nat) < i → r.ofile j = none := by simpa [TableOk, h] using htab
    exact ⟨hi, hz⟩
  | @exitLast i h hi =>
    have hz : ∀ j : Fin K, (j : Nat) < i → r.ofile j = none := by simpa [TableOk, h] using htab
    exact fun j => hz j (by omega)
  | @clear fd h =>
    have hz : ∀ j < fd, r.ofile j = none := by simpa [TableOk, h] using htab
    intro j hj
    show update r.ofile fd none j = none
    by_cases hjf : j = fd
    · rw [hjf, update_self]
    · rw [update_of_ne hjf]
      exact hz j (Fin.lt_def.mpr (by
        omega))
  | _ => trivial

end Xv6.Files
