/-
# `Xv6.Fs.Seq` — the file system, one system call after the other

The state is the disk as `bread` shows it, the inode table, the open files and the
current directories.  `fsOp` says what each operation does when nobody else runs; the
programs of `Xv6.Fs.Code` then are functions on this state, which end in a panic or,
where a process waits for a lock of its own, not at all.

Of the log there is the header of the transaction in progress: `log_write` panics
outside of a transaction, and when the header is full.  What is logged shows on the disk
at once, and `end_op` empties the header.
-/
import Xv6.Fs.Code
import Xv6.Lib.Eval
import Xv6.Lib.Run

namespace Xv6.Fs

open Machine Function

/-! ## State -/

/-- A `struct inode` of the table; `din` is the copy of the inode on disk. -/
structure Inode where
  inum : Nat
  ref : Nat
  valid : Bool
  locked : Bool
  din : Dinode

/-- A `struct file`: unused, given out by `filealloc`, or open. -/
inductive FileSlot
  | free
  | fresh
  | opened (x : File Ptr)

structure Sys where
  disk : Disk
  /-- The blocks logged so far, inside of a transaction. -/
  log : Option (List Nat)
  itable : Ptr → Inode
  file : FilePtr → FileSlot
  cwd : ProcPtr → Option Ptr

/-- How a system call ends that does not return. -/
inductive Stop
  | panic (msg : String)
  | sleep
deriving DecidableEq, Repr

namespace Sys

variable (s : Sys)

def setInode (ip : Ptr) (x : Inode) : Sys :=
  { s with itable := update s.itable ip x }

def setFile (f : FilePtr) (x : FileSlot) : Sys :=
  { s with file := update s.file f x }

/-- The bytes of a buffer change. -/
def store (b : Nat) (d : Block) : Sys :=
  { s with disk := update s.disk b d }

/-- `s.itable ip` with one more or one less reference. -/
def addRef (ip : Ptr) : Sys :=
  s.setInode ip { s.itable ip with ref := (s.itable ip).ref + 1 }

def dropRef (ip : Ptr) : Sys :=
  s.setInode ip { s.itable ip with ref := (s.itable ip).ref - 1 }

def setLocked (ip : Ptr) (v : Bool) : Sys :=
  s.setInode ip { s.itable ip with locked := v }

def setValid (ip : Ptr) (v : Bool) : Sys :=
  s.setInode ip { s.itable ip with valid := v }

def setDin (ip : Ptr) (x : Dinode) : Sys :=
  s.setInode ip { s.itable ip with din := x }

/-- Is the inode already in the table? -/
def cached (inum : Nat) : Option Ptr :=
  (List.finRange NINODE).find? fun ip => 0 < (s.itable ip).ref && (s.itable ip).inum == inum

/-- The first empty place of the table. -/
def empty : Option Ptr := (List.finRange NINODE).find? fun ip => (s.itable ip).ref == 0

/-- The inode can be freed: no links, and the only reference is that being dropped. -/
def dying (ip : Ptr) : Bool :=
  (s.itable ip).ref == 1 && (s.itable ip).valid && (s.itable ip).din.nlink == 0

def freeFile : Option FilePtr :=
  (List.finRange NFILE).find? fun f =>
    match s.file f with
    | .free => true
    | _ => false

variable {s : Sys} {ip jp : Ptr} {i : Nat} {x : Inode}

@[simp] theorem itable_setInode : (s.setInode ip x).itable = update s.itable ip x := rfl
@[simp] theorem disk_setInode : (s.setInode ip x).disk = s.disk := rfl

theorem cached_some (h : s.cached i = some ip) : 0 < (s.itable ip).ref ∧ (s.itable ip).inum = i := by
  have := List.find?_some h
  simpa using this

theorem cached_none (h : s.cached i = none) (ip : Ptr) (hr : 0 < (s.itable ip).ref) :
    (s.itable ip).inum ≠ i := by
  have := List.find?_eq_none.mp h ip (List.mem_finRange ip)
  simpa [hr] using this

theorem cached_eq_none (h : ∀ ip, 0 < (s.itable ip).ref → (s.itable ip).inum ≠ i) :
    s.cached i = none := by
  refine List.find?_eq_none.mpr fun ip _ => ?_
  simpa using h ip

theorem empty_some (h : s.empty = some ip) : (s.itable ip).ref = 0 := by
  have := List.find?_some h
  simpa using this

theorem exists_empty (h : (s.itable ip).ref = 0) : ∃ jp, s.empty = some jp := by
  refine Option.isSome_iff_exists.mp (List.find?_isSome.mpr ⟨ip, List.mem_finRange ip, ?_⟩)
  simpa using h

end Sys

/-! ## Operations -/

/-- The tables in memory, for process `p`. -/
def memOp (p : ProcPtr) : (o : MemOp) → Sys → Except Stop (o.Res × Sys)
  | .iget inum, s =>
    match s.cached inum with
    | some ip => .ok (ip, s.addRef ip)
    | none =>
      match s.empty with
      | none => .error (.panic "iget: no inodes")
      | some ip =>
        .ok (ip, s.setInode ip { s.itable ip with inum := inum, ref := 1, valid := false })
  | .idupCwd, s =>
    match s.cwd p with
    | none => .error (.panic "kerneltrap")
    | some ip => .ok (ip, s.addRef ip)
  | .acquiresleep ip, s =>
    if (s.itable ip).locked then .error .sleep else .ok ((), s.setLocked ip true)
  | .releasesleep ip, s => .ok ((), s.setLocked ip false)
  | .iputTest ip, s =>
    if s.dying ip then
      if (s.itable ip).locked then .error .sleep else .ok (true, s.setLocked ip true)
    else .ok (false, s.dropRef ip)
  | .ideref ip, s => .ok ((), s.dropRef ip)
  | .ref ip, s => .ok ((s.itable ip).ref, s)
  | .holding ip, s => .ok ((s.itable ip).locked, s)
  | .inum ip, s => .ok ((s.itable ip).inum, s)
  | .valid ip, s => .ok ((s.itable ip).valid, s)
  | .setValid ip v, s => .ok ((), s.setValid ip v)
  | .din ip, s => .ok ((s.itable ip).din, s)
  | .setDin ip x, s => .ok ((), s.setDin ip x)
  | .setFile f x, s => .ok ((), s.setFile f (.opened x))
  | .getFile f, s =>
    match s.file f with
    | .opened x => .ok (some x, s)
    | _ => .ok (none, s)

/-- `log.lh.block[]` after `log_write`, which has each block once. -/
def absorb (lh : List Nat) (b : Nat) : List Nat := if b ∈ lh then lh else lh ++ [b]

/-- A `struct buf *` is the number of its block.  `full n` says that a header of `n`
blocks takes no `log_write`. -/
def blockOp (full : Nat → Bool) (p : ProcPtr) : Handler (FsSig Nat) Sys Stop
  | .bread b, s => .ok (b, s)
  | .getData b, s => .ok (s.disk b, s)
  | .setData b d, s => .ok ((), s.store b d)
  | .logWrite b, s =>
    match s.log with
    | none => .error (.panic "log_write outside of trans")
    | some lh =>
      if full lh.length then .error (.panic "too big a transaction")
      else .ok ((), { s with log := some (absorb lh b) })
  | .brelse _, s => .ok ((), s)
  | .beginOp, s => .ok ((), { s with log := some [] })
  | .endOp, s => .ok ((), { s with log := none })
  | .panic msg, _ => .error (.panic msg)
  | .mem o, s => memOp p o s

/-- `log.size` is `LOGSIZE`, as `mkfs` writes it. -/
def logFull (n : Nat) : Bool := LOGSIZE ≤ n || LOGSIZE - 1 ≤ n

/-- What the operations do. -/
abbrev fsOp (p : ProcPtr) : Handler (FsSig Nat) Sys Stop := blockOp logFull p

/-- What they would do if the log had no end. -/
abbrev endless (p : ProcPtr) : Handler (FsSig Nat) Sys Stop := blockOp (fun _ => false) p

section
variable {full : Nat → Bool} {p : ProcPtr} {s : Sys} {ip : Ptr} {b : Nat} {d : Block} {f : FilePtr}

@[simp] theorem eval_bread : (bread b).eval (blockOp full p) s = .ok (b, s) := rfl
@[simp] theorem eval_getData : (getData b).eval (blockOp full p) s = .ok (s.disk b, s) := rfl
@[simp] theorem eval_releasesleep :
    (Mem.releasesleep ip).eval (blockOp full p) s = .ok ((), s.setLocked ip false) := rfl
@[simp] theorem eval_ref : (Mem.ref ip).eval (blockOp full p) s = .ok ((s.itable ip).ref, s) := rfl
@[simp] theorem eval_holding :
    (Mem.holding ip).eval (blockOp full p) s = .ok ((s.itable ip).locked, s) := rfl
@[simp] theorem eval_valid :
    (Mem.valid ip).eval (blockOp full p) s = .ok ((s.itable ip).valid, s) := rfl
@[simp] theorem eval_din : (Mem.din ip).eval (blockOp full p) s = .ok ((s.itable ip).din, s) := rfl
@[simp] theorem eval_setValid {v : Bool} :
    (Mem.setValid ip v).eval (blockOp full p) s = .ok ((), s.setValid ip v) := rfl
@[simp] theorem eval_setData : (setData b d).eval (blockOp full p) s = .ok ((), s.store b d) := rfl
@[simp] theorem eval_brelse : (brelse b).eval (blockOp full p) s = .ok ((), s) := rfl
@[simp] theorem eval_beginOp :
    beginOp.eval (blockOp full p) s = .ok ((), { s with log := some [] }) := rfl
@[simp] theorem eval_endOp : endOp.eval (blockOp full p) s = .ok ((), { s with log := none }) := rfl
@[simp] theorem eval_inum : (Mem.inum ip).eval (blockOp full p) s = .ok ((s.itable ip).inum, s) := rfl
@[simp] theorem eval_setDin {x : Dinode} :
    (Mem.setDin ip x).eval (blockOp full p) s = .ok ((), s.setDin ip x) := rfl

end

/-- What the operations on inodes do. -/
def inoOp (sb : Super) (p : ProcPtr) : Handler (InoSig Ptr) Sys Stop :=
  fun o s => (inoCode sb o).eval (fsOp p) s

section
variable {sb : Super} {p : ProcPtr} {s : Sys} {ip : Ptr} {name : Name} {i : Nat}

theorem eval_onBlocks {α : Type} (m : Prog (InoSig Ptr) α) :
    (onBlocks sb m).eval (fsOp p) s = m.eval (inoOp sb p) s := Prog.eval_lower _ m

theorem eval_ino_igetRoot :
    Ino.igetRoot.eval (inoOp sb p) s = (Mem.iget ROOTINO).eval (fsOp p) s :=
  Prog.eval_call _

theorem eval_ino_ilock : (Ino.ilock ip).eval (inoOp sb p) s = (ilock sb ip).eval (fsOp p) s :=
  Prog.eval_call _

theorem eval_ino_type : (Ino.type ip).eval (inoOp sb p) s = .ok ((s.itable ip).din.type, s) :=
  Prog.eval_call _

theorem eval_ino_dirlookup :
    (Ino.dirlookup ip name).eval (inoOp sb p) s = (dirlookup sb ip name).eval (fsOp p) s :=
  Prog.eval_call _

theorem iunlock_eval (hl : (s.itable ip).locked = true) (hr : 0 < (s.itable ip).ref) :
    (iunlock ip).eval (fsOp p) s = .ok ((), s.setLocked ip false) := by
  simp [iunlock, Prog.eval_bind, Except.bind, hl, Nat.ne_of_gt hr]

/-- `iunlockput` of an inode with other references. -/
theorem eval_iunlockput (hl : (s.itable ip).locked = true) (hr : 2 ≤ (s.itable ip).ref) :
    (iunlockput ip).eval (inoOp sb p) s = .ok ((), (s.setLocked ip false).dropRef ip) := by
  have hu : (Ino.iunlock ip).eval (inoOp sb p) s = .ok ((), s.setLocked ip false) :=
    (Prog.eval_call _).trans (iunlock_eval hl (Nat.lt_of_lt_of_le Nat.two_pos hr))
  have ht : (Ino.iputTest ip).eval (inoOp sb p) (s.setLocked ip false)
      = .ok (false, (s.setLocked ip false).dropRef ip) := by
    refine (Prog.eval_call _).trans ?_
    have hd : (s.setLocked ip false).dying ip = false := by
      have : (s.itable ip).ref ≠ 1 := by omega
      simp [Sys.dying, Sys.setLocked, this]
    have : (Mem.iputTest ip).eval (fsOp p) (s.setLocked ip false)
        = .ok (false, (s.setLocked ip false).dropRef ip) := by
      refine (Prog.eval_call _).trans ?_
      simp only [blockOp, memOp, hd]
      rfl
    exact this
  simp only [iunlockput, iput, Prog.bind_def, Prog.eval_bind, hu, Except.bind, ht]
  rfl

/-- `iget` of an inode that is not in the table. -/
theorem eval_iget_empty {ip : Ptr} (hc : s.cached i = none) (he : s.empty = some ip) :
    (Mem.iget i).eval (fsOp p) s
      = .ok (ip, s.setInode ip { s.itable ip with inum := i, ref := 1, valid := false }) := by
  refine (Prog.eval_call _).trans ?_
  simp only [blockOp, memOp, hc, he]
  rfl

theorem eval_iget_cached {ip : Ptr} (hc : s.cached i = some ip) :
    (Mem.iget i).eval (fsOp p) s = .ok (ip, s.addRef ip) := by
  refine (Prog.eval_call _).trans ?_
  simp only [blockOp, memOp, hc]
  rfl

end

scoped instance : NeZero NINODE := ⟨by decide⟩
scoped instance : NeZero NPROC := ⟨by decide⟩

/-- The tables when the first process starts: its current directory is the root. -/
def boot (d : Disk) : Sys where
  disk := d
  log := none
  itable := fun ip =>
    ⟨if ip = 0 then ROOTINO else 0, if ip = 0 then 1 else 0, false, false, Dinode.zero⟩
  file := fun _ => .free
  cwd := fun p => if p = 0 then some 0 else none

end Xv6.Fs
