/-
# `Xv6.Log.State` — the buffer cache, the log and the disk, operation by operation

What `kernel/bio.c` and `kernel/log.c` do to shared memory and to the disk, cut
into the pieces that run without interference: a section under `bcache.lock` or
`log.lock`, a sleep-lock acquired or released, one block transferred, one access
to a buffer.  `perform` is such a piece run by process `p`; the functions of the
source are programs over these pieces (`Xv6.Log.Code`).

  * The LRU list is `order`, from `head.next` to `head.prev`.
  * There is one device, `ROOTDEV`; `binit` leaves buffers on device 0.
  * A panic stops the machine, and its operation never answers.
  * Sleeping for a sleep-lock is "not enabled"; sleeping in `begin_op` is
    explicit.
  * What the processes do besides (inodes, descriptors, user memory) is a
    parameter: a memory and operations on it that do not touch the fields here.

The fields after `mem` are history: no operation looks at them.  `refs p` are
the references `p` took in `bget` and has not dropped, `pins` the buffers
pinned by `log_write`, `op p` the serial number of the operation `p` is in,
`owner` the process that runs `commit` or the recovery at boot.  `pending` has the
updates logged since the last commit, `committed` those whose commit header
reached the disk, `lost` those a crash wiped out before.  `group` lists the
`log_write`s since the last commit was over, each with its operation.
-/
import Xv6.Lib.Bytes
import Xv6.Lib.RelyGuarantee
import Xv6.Params

namespace Xv6.Log

open Machine Function

abbrev Block := Bytes BSIZE

abbrev BlockNo := UInt32

/-- A `struct buf *`. -/
abbrev BufPtr := Fin NBUF

/-- Where the superblock puts the log: the header at `start`, `size` blocks in
all. -/
structure Layout where
  start : Nat
  size : Nat
  pos : 0 < size
  fits : start + size ≤ 2 ^ 31

/-- Block `i` of the log area. -/
def Layout.at (L : Layout) (i : Nat) : BlockNo := UInt32.ofNat (L.start + i)

/-- Outside the log area. -/
def Layout.Home (L : Layout) (b : BlockNo) : Prop :=
  b.toNat < L.start ∨ L.start + L.size ≤ b.toNat

/-- The log as `mkfs` lays it out: behind the boot block and the superblock, `nlog`
blocks, `nlog = LOGSIZE`. -/
def Layout.mkfs : Layout := ⟨2, LOGSIZE, by decide, by decide⟩

/-- The rest of the kernel's memory, and operations on it. -/
structure Ext (N : Nat) where
  Mem : Type
  boot : Mem
  Op : Type
  Res : Op → Type
  perform : Fin N → (o : Op) → Mem → Option (Res o × Mem)

structure Buf (N : Nat) where
  valid : Bool
  dev : UInt32
  blockno : BlockNo
  lock : Option (Fin N)
  refcnt : Nat
  data : Block
  /-- History: changed, and neither logged nor written since. -/
  dirty : Bool

/-- A block as `log_write` found it, and the operation that logged it. -/
structure Update where
  op : Nat
  blockno : BlockNo
  data : Block

structure Sys (N : Nat) (M : Type) where
  disk : BlockNo → Block
  buf : BufPtr → Buf N
  order : List BufPtr
  outstanding : Nat
  committing : Bool
  lh : List BlockNo
  panicked : Option String
  booted : Bool
  asleep : Fin N → Bool
  mem : M
  refs : Fin N → List BufPtr
  pins : List BufPtr
  op : Fin N → Option Nat
  nextop : Nat
  owner : Option (Fin N)
  pending : List Update
  committed : List Update
  lost : List Update
  group : List (Nat × BlockNo)

/-! ## The log header in a block -/

/-- `lh->n`. -/
def hdrN (d : Block) : Int := (d.u32 0).toInt32.toInt

/-- `lh->block[0..n)`. -/
def hdrBlocks (d : Block) : List BlockNo :=
  (List.range (hdrN d).toNat).map fun i => d.u32 (4 + 4 * i)

/-- Store `n` and `block[0..n)`; the rest of the block stays as it is. -/
def putHdr (d : Block) (lh : List BlockNo) : Block :=
  (d.setU32 0 (UInt32.ofNat lh.length)).setU32s 4 lh

/-! ## Operations -/

inductive Op (E : Type)
  | bget (b : BlockNo)
  | acquiresleep (i : BufPtr)
  | valid (i : BufPtr)
  | diskRead (i : BufPtr)
  | getData (i : BufPtr)
  | setData (i : BufPtr) (d : Block)
  | diskWrite (i : BufPtr)
  | releasesleep (i : BufPtr)
  | deref (i : BufPtr)
  | bunpin (i : BufPtr)
  | beginOp
  | logWrite (i : BufPtr)
  | endOp
  | endCommit
  | getLh
  | setLh (lh : List BlockNo)
  | boot
  | panic (msg : String)
  | ext (e : E)

def Op.Res {N : Nat} {X : Ext N} : Op X.Op → Type
  | .bget _ => BufPtr
  | .valid _ => Bool
  | .getData _ => Block
  | .endOp => Bool
  | .getLh => List BlockNo
  | .panic _ => Empty
  | .ext e => X.Res e
  | _ => Unit

abbrev sig {N : Nat} (X : Ext N) : Sig := ⟨Op X.Op, Op.Res⟩

section
variable {N : Nat} {M : Type} (s : Sys N M)

def Sys.setBuf (i : BufPtr) (x : Buf N) : Sys N M :=
  { s with buf := update s.buf i x }

/-- `panic(msg)`: no answer, and nothing runs any more. -/
def Sys.panic {α : Type} (msg : String) : Option α × Sys N M :=
  (none, { s with panicked := some msg })

/-- `p` takes or drops references. -/
def Sys.setRefs (p : Fin N) (l : List BufPtr) : Sys N M :=
  { s with refs := update s.refs p l }

/-- The scan of `bget` for a cached block. -/
def Sys.cached (b : BlockNo) : Option BufPtr :=
  s.order.find? fun i => (s.buf i).dev == ROOTDEV && (s.buf i).blockno == b

/-- The scan of `bget`, from the other end, for a buffer to recycle. -/
def Sys.unused : Option BufPtr :=
  s.order.reverse.find? fun i => (s.buf i).refcnt == 0

/-- `bget` under `bcache.lock`. -/
def bget (p : Fin N) (b : BlockNo) (s : Sys N M) : Option BufPtr × Sys N M :=
  match s.cached b with
  | some i =>
    (some i, (s.setBuf i { s.buf i with refcnt := (s.buf i).refcnt + 1 }).setRefs p (i :: s.refs p))
  | none =>
    match s.unused with
    | some i =>
      (some i, (s.setBuf i { s.buf i with
        dev := ROOTDEV, blockno := b, valid := false, refcnt := 1, dirty := false }).setRefs p
          (i :: s.refs p))
    | none => s.panic "bget: no buffers"

/-- `brelse` under `bcache.lock`. -/
def deref (p : Fin N) (i : BufPtr) (s : Sys N M) : Sys N M :=
  let s' := (s.setBuf i { s.buf i with refcnt := (s.buf i).refcnt - 1 }).setRefs p
    ((s.refs p).erase i)
  if (s.buf i).refcnt - 1 = 0 then { s' with order := i :: s.order.erase i } else s'

/-- `bunpin`. -/
def bunpin (i : BufPtr) (s : Sys N M) : Sys N M :=
  { s.setBuf i { s.buf i with refcnt := (s.buf i).refcnt - 1 } with pins := s.pins.erase i }

/-- The disk writes the block of buffer `i`.  A header with `n > 0` reaching the
disk commits what is pending. -/
def diskWrite (L : Layout) (i : BufPtr) (s : Sys N M) : Sys N M :=
  let b := s.buf i
  let s' : Sys N M := { s.setBuf i { b with dirty := false } with
    disk := update s.disk b.blockno b.data }
  if b.blockno = L.at 0 ∧ 0 < hdrN b.data then
    { s' with committed := s.committed ++ s.pending, pending := [] }
  else s'

/-- The update that `log_write` records. -/
def Sys.update (p : Fin N) (i : BufPtr) : Update :=
  ⟨(s.op p).getD 0, (s.buf i).blockno, (s.buf i).data⟩

def Sys.record (p : Fin N) (i : BufPtr) : Sys N M :=
  { s with
    pending := s.pending ++ [s.update p i]
    group := s.group ++ [((s.op p).getD 0, (s.buf i).blockno)] }

/-- `log_write` under `log.lock`. -/
def logWrite (L : Layout) (p : Fin N) (i : BufPtr) (s : Sys N M) : Option Unit × Sys N M :=
  let b := s.buf i
  if LOGSIZE ≤ s.lh.length ∨ (L.size : Int) - 1 ≤ s.lh.length then
    s.panic "too big a transaction"
  else if s.outstanding < 1 then s.panic "log_write outside of trans"
  else
    let s' := s.record p i
    if b.blockno ∈ s.lh then (some (), s'.setBuf i { b with dirty := false })
    else
      (some (), { s'.setBuf i { b with refcnt := b.refcnt + 1, dirty := false } with
        lh := s.lh ++ [b.blockno], pins := s.pins ++ [i] })

/-- `wakeup(&log)`. -/
def Sys.wakeupLog : Sys N M := { s with asleep := fun _ => false }

/-- The body of `begin_op`'s loop; `none` while the process goes to sleep. -/
def beginOp (p : Fin N) (s : Sys N M) : Option Unit × Sys N M :=
  if s.committing ∨ LOGSIZE < s.lh.length + (s.outstanding + 1) * MAXOPBLOCKS then
    (none, { s with asleep := update s.asleep p true })
  else
    (some (), { s with
      outstanding := s.outstanding + 1
      op := update s.op p (some s.nextop), nextop := s.nextop + 1 })

/-- The first section of `end_op`; answers `do_commit`. -/
def endOp (p : Fin N) (s : Sys N M) : Option Bool × Sys N M :=
  let s' : Sys N M := { s with outstanding := s.outstanding - 1, op := update s.op p none }
  if s.committing then s'.panic "log.committing"
  else if s.outstanding - 1 = 0 then
    (some true, { s' with committing := true, owner := some p })
  else (some false, s'.wakeupLog)

/-- What an operation of process `p` does.  `none`: it is not enabled, or the
machine has stopped. -/
def perform (L : Layout) (X : Ext N) (p : Fin N) (o : Op X.Op) (s : Sys N X.Mem) :
    Option (Option (Op.Res (X := X) o) × Sys N X.Mem) :=
  if s.panicked.isSome then none
  else match o with
    | .bget b => some (bget p b s)
    | .acquiresleep i =>
      if (s.buf i).lock.isSome then none
      else some (some (), s.setBuf i { s.buf i with lock := some p })
    | .valid i => some (some (s.buf i).valid, s)
    | .diskRead i =>
      some (some (), s.setBuf i { s.buf i with
        data := s.disk (s.buf i).blockno, valid := true, dirty := false })
    | .getData i => some (some (s.buf i).data, s)
    | .setData i d => some (some (), s.setBuf i { s.buf i with data := d, dirty := true })
    | .diskWrite i =>
      if (s.buf i).lock = some p then some (some (), diskWrite L i s)
      else some (s.panic "bwrite")
    | .releasesleep i =>
      if (s.buf i).lock = some p then
        some (some (), s.setBuf i { s.buf i with lock := none })
      else some (s.panic "brelse")
    | .deref i => some (some (), deref p i s)
    | .bunpin i => some (some (), bunpin i s)
    | .beginOp => if s.asleep p then none else some (beginOp p s)
    | .logWrite i => some (logWrite L p i s)
    | .endOp => some (endOp p s)
    | .endCommit => some (some (), { s with committing := false, owner := none, group := [] }.wakeupLog)
    | .getLh => some (some s.lh, s)
    | .setLh lh => some (some (), { s with lh := lh })
    | .boot => some (some (), { s with booted := true, owner := none })
    | .panic msg => some (s.panic msg)
    | .ext e => (X.perform p e s.mem).map fun (r, m) => (some r, { s with mem := m })

end

end Xv6.Log
