/-
# `Xv6.Fs.Sysfile` — path names and the operations on inodes

`namex` as a program over the operations on inodes that `fs.c` provides.  `P` is a
`struct inode *`; what the operations do is said elsewhere, on the blocks of a disk and
on a table of directories.

  * `iput` is cut where it drops `itable.lock`: the test, the freeing, the final `ref--`.
  * There is one device, so that `dp->dev != ip->dev` does not occur.
  * A name is the string in its buffer of `DIRSIZ` bytes.
-/
import Xv6.Fs.Format
import Xv6.Lib.Prog

namespace Xv6.Fs

open Machine List

/-! ## Paths -/

abbrev Path := List UInt8

/-- The next path element and what follows it, without leading slashes. -/
def skipelem (path : Path) : Option (Name × Path) :=
  let path := path.dropWhile (· == SLASH)
  if path.isEmpty then none
  else
    some ((path.takeWhile (· != SLASH)).take DIRSIZ,
      (path.dropWhile (· != SLASH)).dropWhile (· == SLASH))

/-- `skipelem` until there is none, at most `fuel` times. -/
def elemsFrom : Nat → Path → List (Name × Path)
  | 0, _ => []
  | fuel + 1, path =>
    match skipelem path with
    | none => []
    | some (name, rest) => (name, rest) :: elemsFrom fuel rest

/-- The elements of a path, each with what follows it. -/
def elems (path : Path) : List (Name × Path) := elemsFrom path.length path

theorem length_skipelem {path rest : Path} {name : Name} (h : skipelem path = some (name, rest)) :
    rest.length < path.length := by
  unfold skipelem at h
  set p := path.dropWhile (· == SLASH) with hp
  have hle : p.length ≤ path.length := (dropWhile_suffix _).length_le
  cases hp' : p with
  | nil => simp [hp'] at h
  | cons c cs =>
    have hc : (c != SLASH) = true := by
      have := List.head?_dropWhile_not (· == SLASH) path
      rw [← hp, hp'] at this
      simpa using this
    rw [hp'] at h
    simp only [isEmpty_cons, Bool.false_eq_true, if_false, Option.some.injEq, Prod.mk.injEq,
      dropWhile_cons, hc, if_true] at h
    have h₁ := (dropWhile_suffix (l := cs.dropWhile (· != SLASH)) (· == SLASH)).length_le
    have h₂ := (dropWhile_suffix (l := cs) (· != SLASH)).length_le
    rw [h.2] at h₁
    rw [hp', length_cons] at hle
    omega

/-- The loop runs as long as there are elements. -/
theorem elems_eq (path : Path) : elems path =
    match skipelem path with
    | none => []
    | some (name, rest) => (name, rest) :: elems rest := by
  have hfuel : ∀ (n : Nat) (p : Path), p.length ≤ n → elemsFrom n p = elems p := by
    intro n
    induction n using Nat.strong_induction_on with
    | _ n ih =>
    intro p hp
    cases n with
    | zero =>
      obtain rfl : p = [] := length_eq_zero_iff.mp (by omega)
      rfl
    | succ n =>
      unfold elems
      cases hl : p.length with
      | zero =>
        obtain rfl := length_eq_zero_iff.mp hl
        rfl
      | succ m =>
        simp only [elemsFrom]
        cases hs : skipelem p with
        | none => rfl
        | some x =>
          have hlt : x.2.length < p.length := length_skipelem hs
          simp only [List.cons.injEq, true_and]
          rw [ih n (by omega) x.2 (by omega), ih m (by omega) x.2 (by omega)]
  cases hs : skipelem path with
  | none =>
    unfold elems
    cases path.length with
    | zero => rfl
    | succ m => simp [elemsFrom, hs]
  | some x =>
    have hlt : x.2.length < path.length := length_skipelem hs
    unfold elems
    obtain ⟨m, hm⟩ : ∃ m, path.length = m + 1 := ⟨path.length - 1, by omega⟩
    rw [hm]
    simp only [elemsFrom, hs, List.cons.injEq, true_and]
    exact hfuel m x.2 (by omega)

/-! ## Operations on inodes -/

/-- A `struct file *`. -/
abbrev FilePtr := Fin NFILE

/-- A `struct proc *`. -/
abbrev ProcPtr := Fin NPROC

inductive FileKind
  | inode
  | device (major : UInt16)
deriving DecidableEq, Repr

/-- An open file on an inode. -/
structure File (P : Type) where
  kind : FileKind
  readable : Bool
  writable : Bool
  ip : P
  off : Nat

/-- Operations, `P` being a `struct inode *`. -/
inductive InoOp (P : Type)
  | igetRoot
  | idupCwd
  | ilock (ip : P)
  | iunlock (ip : P)
  | iputTest (ip : P)
  | ifree (ip : P)
  | ideref (ip : P)
  | type (ip : P)
  | dirlookup (dp : P) (name : Name)

/-- Their answers: an entry that is found comes with its index. -/
def InoOp.Res {P : Type} : InoOp P → Type
  | .igetRoot | .idupCwd => P
  | .iputTest _ => Bool
  | .type _ => UInt16
  | .dirlookup _ _ => Option (P × Nat)
  | _ => Unit

abbrev InoSig (P : Type) : Sig := ⟨InoOp P, InoOp.Res⟩

namespace Ino

variable {P : Type}

abbrev igetRoot : Prog (InoSig P) P := Prog.call (S := InoSig P) .igetRoot
abbrev idupCwd : Prog (InoSig P) P := Prog.call (S := InoSig P) .idupCwd
abbrev ilock (ip : P) : Prog (InoSig P) Unit := Prog.call (S := InoSig P) (.ilock ip)
abbrev iunlock (ip : P) : Prog (InoSig P) Unit := Prog.call (S := InoSig P) (.iunlock ip)
abbrev iputTest (ip : P) : Prog (InoSig P) Bool := Prog.call (S := InoSig P) (.iputTest ip)
abbrev ifree (ip : P) : Prog (InoSig P) Unit := Prog.call (S := InoSig P) (.ifree ip)
abbrev ideref (ip : P) : Prog (InoSig P) Unit := Prog.call (S := InoSig P) (.ideref ip)
abbrev type (ip : P) : Prog (InoSig P) UInt16 := Prog.call (S := InoSig P) (.type ip)
abbrev dirlookup (dp : P) (name : Name) : Prog (InoSig P) (Option (P × Nat)) :=
  Prog.call (S := InoSig P) (.dirlookup dp name)

end Ino

section
variable {P : Type}

/-! ## fs.c -/

def iput (ip : P) : Prog (InoSig P) Unit := do
  if ← Ino.iputTest ip then
    Ino.ifree ip
    Ino.ideref ip

def iunlockput (ip : P) : Prog (InoSig P) Unit := do
  Ino.iunlock ip
  iput ip

/-- The loop of `namex`, over the elements that are left. -/
def namexFrom (nameiparent : Bool) (ip : P) : List (Name × Path) → Prog (InoSig P) (Option (P × Name))
  | [] => do
    if nameiparent then
      iput ip
      return none
    else
      return some (ip, [])
  | (name, path) :: rest => do
    Ino.ilock ip
    if (← Ino.type ip) ≠ T_DIR then
      iunlockput ip
      return none
    else if nameiparent ∧ path = [] then
      -- Stop one level early.
      Ino.iunlock ip
      return some (ip, name)
    else
      match ← Ino.dirlookup ip name with
      | none => do
        iunlockput ip
        return none
      | some (next, _) => do
        iunlockput ip
        namexFrom nameiparent next rest

def namex (path : Path) (nameiparent : Bool) : Prog (InoSig P) (Option (P × Name)) := do
  if path.head? = some SLASH then
    let ip ← Ino.igetRoot
    namexFrom nameiparent ip (elems path)
  else
    let ip ← Ino.idupCwd
    namexFrom nameiparent ip (elems path)

end

end Xv6.Fs
