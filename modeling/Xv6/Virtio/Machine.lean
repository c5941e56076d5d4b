/-
# `Xv6.Virtio.Machine` — the virtio disk driver and the device it talks to

`kernel/virtio_disk.c` from `alloc_desc` on: processes in `virtio_disk_rw`,
`virtio_disk_intr` on any number of CPUs, and the device, which shares the
descriptors and the two rings with them and takes no lock.

  * Under `vdisk_lock` a step is a piece of code in which nothing is touched
    that the device may read or write at the time: `alloc3_desc`, the formatting
    of a chain, `free_chain`.  The store to the avail ring, the increment of its
    index, the look at the used index and the handling of one used entry are
    steps of their own.
  * `sleep` gives up the lock and falls asleep in one step; `kill` may end any
    sleep.
  * Ring indices are 16-bit and wrap.  Descriptor numbers are `Nat`: every number
    stored comes from `alloc_desc` and fits its field.
  * The device takes avail entries in order.  It carries out what it has taken in
    any order, reading the chain from the descriptor table, and posts the head of
    each to the used ring, again in any order.
  * An interrupt may come at any time; the interrupt status register, which only
    the device reads back, is left out.
  * A buffer is passed to `virtio_disk_rw` by the process that has it locked, so a
    call is enabled when no other call is under way for that buffer.
-/
import Xv6.Lib.Ring
import Xv6.Lib.Run

namespace Xv6.Virtio

open Machine Function

/-- The number of descriptors, and of entries of each ring. -/
abbrev NUM : Nat := 8

scoped instance : NeZero NUM := ⟨by decide⟩

/-- The sectors of a block, `BSIZE / 512`. -/
abbrev SPB : Nat := 2

scoped instance : NeZero SPB := ⟨by decide⟩

abbrev VRING_DESC_F_NEXT : UInt16 := 1
abbrev VRING_DESC_F_WRITE : UInt16 := 2

abbrev VIRTIO_BLK_T_IN : UInt32 := 0
abbrev VIRTIO_BLK_T_OUT : UInt32 := 1

/-! ## The shared memory -/

/-- The addresses a descriptor can hold: those of `disk.ops[i]`, of the data of a
buffer and of `disk.info[i].status`. -/
inductive Addr (B : Type)
  | null
  | op (i : Fin NUM)
  | data (b : B)
  | status (i : Fin NUM)
  deriving DecidableEq, Repr

structure Desc (B : Type) where
  addr : Addr B
  len : UInt32
  flags : UInt16
  next : Nat
  deriving DecidableEq, Repr

def Desc.zero {B : Type} : Desc B := ⟨.null, 0, 0, 0⟩

structure Avail where
  idx : UInt16
  ring : Fin NUM → Nat

/-- `ring` has the `id` of each entry; nothing reads its `len`. -/
structure Used where
  idx : UInt16
  ring : Fin NUM → Nat

structure BlkReq where
  type : UInt32
  reserved : UInt32
  sector : UInt64
  deriving DecidableEq, Repr

structure Info (B : Type) where
  b : Option B
  status : UInt8

/-- `struct disk`, with what its pointers point to. -/
structure Disk (B : Type) where
  desc : Fin NUM → Desc B
  avail : Avail
  used : Used
  free : Fin NUM → Bool
  usedIdx : UInt16
  info : Fin NUM → Info B
  ops : Fin NUM → BlkReq

structure Buf (D : Type) where
  /-- `b->disk`: the device owns the buffer. -/
  disk : Bool
  blockno : UInt32
  data : Fin SPB → D

/-- What the device keeps to itself: how far it has read the avail ring, and the
heads it has taken, with whether the request has been carried out. -/
structure Dev where
  seen : UInt16
  work : List (Nat × Bool)

/-! ## Program points -/

/-- The arguments of `virtio_disk_rw`. -/
structure Rw (B : Type) where
  b : B
  write : Bool
  deriving DecidableEq, Repr

/-- `int idx[3]`. -/
structure Idx where
  i0 : Fin NUM
  i1 : Fin NUM
  i2 : Fin NUM
  deriving DecidableEq, Repr

/-- Where a process is in `virtio_disk_rw`. -/
inductive PC (B : Type)
  | idle
  -- at `acquire(&disk.vdisk_lock)`, the one in `sleep` included
  | enter (r : Rw B)
  | alloc (r : Rw B)
  | sleepFree (r : Rw B)
  | format (r : Rw B) (x : Idx)
  -- the store to the avail ring; the increment of its index
  | ring (r : Rw B) (x : Idx)
  | bump (r : Rw B) (x : Idx)
  -- `while(b->disk == 1) sleep(b, &disk.vdisk_lock)`
  | wait (r : Rw B) (x : Idx)
  | sleepBuf (r : Rw B) (x : Idx)
  | relock (r : Rw B) (x : Idx)
  -- `disk.info[idx[0]].b = 0; free_chain(idx[0])`; the `release`
  | finish (r : Rw B) (x : Idx)
  | leave
  deriving DecidableEq, Repr

/-- Where a CPU is in `virtio_disk_intr`. -/
inductive Intr
  | off
  | enter
  | look
  | body
  | leave
  deriving DecidableEq, Repr

structure Sys (N M : Nat) (B D : Type) where
  disk : Disk B
  dev : Dev
  /-- The sectors on the device. -/
  image : UInt64 → D
  buf : B → Buf D
  /-- `vdisk_lock`, held by a process or by the handler of a CPU. -/
  lock : Option (Fin N ⊕ Fin M)
  pc : Fin N → PC B
  intr : Fin M → Intr
  panic : Option String

variable {N M : Nat} {B D : Type} [DecidableEq B] (s : Sys N M B D)

/-! ## `wakeup` -/

/-- `wakeup(&disk.free[0])` at one process. -/
def PC.wakeFree : PC B → PC B
  | .sleepFree r => .enter r
  | pc => pc

/-- `wakeup(b)` at one process. -/
def PC.wakeBuf (b : B) : PC B → PC B
  | .sleepBuf r x => if r.b = b then .relock r x else .sleepBuf r x
  | pc => pc

def Sys.wakeFree : Sys N M B D := { s with pc := fun p => (s.pc p).wakeFree }

def Sys.wakeBuf (b : B) : Sys N M B D :=
  { s with pc := fun p => (s.pc p).wakeBuf b }

/-! ## Descriptors -/

def allocDesc : Option (Fin NUM) × Sys N M B D :=
  match (List.finRange NUM).find? s.disk.free with
  | some i => (some i, { s with disk := { s.disk with free := update s.disk.free i false } })
  | none => (none, s)

def freeDesc (i : Nat) : Except String (Sys N M B D) :=
  if h : i < NUM then
    if s.disk.free ⟨i, h⟩ then .error "free_desc 2"
    else
      .ok { s with disk := { s.disk with
              desc := update s.disk.desc ⟨i, h⟩ .zero
              free := update s.disk.free ⟨i, h⟩ true } }.wakeFree
  else .error "free_desc 1"

/-- The loop of `free_chain`.  Every round frees a descriptor that was not free, so
`NUM` rounds and the one that panics are all there can be. -/
def freeChainLoop : Nat → Sys N M B D → Nat → Except String (Sys N M B D)
  | 0, _, _ => .error "free_chain"
  | n + 1, s, i =>
    if h : i < NUM then do
      let flag := (s.disk.desc ⟨i, h⟩).flags
      let nxt := (s.disk.desc ⟨i, h⟩).next
      let t ← freeDesc s i
      if flag &&& VRING_DESC_F_NEXT ≠ 0 then freeChainLoop n t nxt else return t
    else freeDesc s i

def freeChain (i : Nat) : Except String (Sys N M B D) :=
  freeChainLoop (NUM + 1) s i

/-- `alloc3_desc`, its loop unrolled: what it got is freed again when it gets no more. -/
def alloc3Desc : Except String (Option Idx × Sys N M B D) :=
  match allocDesc s with
  | (none, s₁) => .ok (none, s₁)
  | (some i0, s₁) =>
    match allocDesc s₁ with
    | (none, s₂) => do
      let t ← freeDesc s₂ i0
      return (none, t)
    | (some i1, s₂) =>
      match allocDesc s₂ with
      | (none, s₃) => do
        let t ← freeDesc s₃ i0
        let t ← freeDesc t i1
        return (none, t)
      | (some i2, s₃) => .ok (some ⟨i0, i1, i2⟩, s₃)

/-! ## `virtio_disk_rw` -/

/-- The request header of `virtio_disk_rw`. -/
def blkReq (r : Rw B) (blockno : UInt32) : BlkReq :=
  ⟨if r.write then VIRTIO_BLK_T_OUT else VIRTIO_BLK_T_IN, 0, (blockno * 2).toUInt64⟩

def desc0 (x : Idx) : Desc B := ⟨.op x.i0, 16, VRING_DESC_F_NEXT, x.i1⟩

def desc1 (r : Rw B) (x : Idx) : Desc B :=
  ⟨.data r.b, 1024, (if r.write then 0 else VRING_DESC_F_WRITE) ||| VRING_DESC_F_NEXT, x.i2⟩

def desc2 (x : Idx) : Desc B := ⟨.status x.i0, 1, VRING_DESC_F_WRITE, 0⟩

/-- From `buf0->type` to `disk.info[idx[0]].b = b`. -/
def formatReq (r : Rw B) (x : Idx) : Sys N M B D :=
  { s with
    disk := { s.disk with
      ops := update s.disk.ops x.i0 (blkReq r (s.buf r.b).blockno)
      desc := update (update (update s.disk.desc
        x.i0 (desc0 x)) x.i1 (desc1 r x)) x.i2 (desc2 x)
      info := update s.disk.info x.i0 ⟨some r.b, 0xff⟩ }
    buf := update s.buf r.b { s.buf r.b with disk := true } }

def putAvail (x : Idx) : Sys N M B D :=
  { s with disk := { s.disk with avail := { s.disk.avail with
      ring := update s.disk.avail.ring (slot NUM s.disk.avail.idx.toNat) x.i0 } } }

def bumpAvail : Sys N M B D :=
  { s with disk := { s.disk with avail := { s.disk.avail with idx := s.disk.avail.idx + 1 } } }

def clearInfo (x : Idx) : Sys N M B D :=
  { s with disk := { s.disk with
      info := update s.disk.info x.i0 { s.disk.info x.i0 with b := none } } }

def Sys.goto (p : Fin N) (pc : PC B) : Sys N M B D :=
  { s with pc := update s.pc p pc }

def Sys.gotoIntr (c : Fin M) (pc : Intr) : Sys N M B D :=
  { s with intr := update s.intr c pc }

def Sys.fail (msg : String) : Sys N M B D := { s with panic := some msg }

def Sys.acquire (o : Fin N ⊕ Fin M) : Option (Sys N M B D) :=
  if s.lock = none then some { s with lock := some o } else none

def Sys.release : Sys N M B D := { s with lock := none }

/-- The next step of a process. -/
def runProc (p : Fin N) : Option (Sys N M B D) :=
  match s.pc p with
  | .idle | .sleepFree _ | .sleepBuf _ _ => none
  | .enter r => (s.acquire (.inl p)).map (·.goto p (.alloc r))
  | .alloc r =>
    match alloc3Desc s with
    | .error msg => some (s.fail msg)
    | .ok (some x, t) => some (t.goto p (.format r x))
    | .ok (none, t) => some (t.release.goto p (.sleepFree r))
  | .format r x => some ((formatReq s r x).goto p (.ring r x))
  | .ring r x => some ((putAvail s x).goto p (.bump r x))
  | .bump r x => some ((bumpAvail s).goto p (.wait r x))
  | .wait r x =>
    if (s.buf r.b).disk then some (s.release.goto p (.sleepBuf r x))
    else some (s.goto p (.finish r x))
  | .relock r x => (s.acquire (.inl p)).map (·.goto p (.wait r x))
  | .finish _ x =>
    match freeChain (clearInfo s x) x.i0 with
    | .error msg => some (s.fail msg)
    | .ok t => some (t.goto p .leave)
  | .leave => some (s.release.goto p .idle)

/-! ## `virtio_disk_intr` -/

/-- The body of its loop. -/
def handle : Except String (Sys N M B D) :=
  let id := s.disk.used.ring (slot NUM s.disk.usedIdx.toNat)
  if h : id < NUM then
    if (s.disk.info ⟨id, h⟩).status ≠ 0 then .error "virtio_disk_intr status"
    else
      match (s.disk.info ⟨id, h⟩).b with
      | none => .error "kerneltrap"
      | some b =>
        let t := { s with buf := update s.buf b { s.buf b with disk := false } }.wakeBuf b
        .ok { t with disk := { t.disk with usedIdx := t.disk.usedIdx + 1 } }
  else .error "kerneltrap"

/-- The next step of the handler on a CPU. -/
def runIntr (c : Fin M) : Option (Sys N M B D) :=
  match s.intr c with
  | .off => none
  | .enter => (s.acquire (.inr c)).map (·.gotoIntr c .look)
  | .look =>
    if s.disk.usedIdx ≠ s.disk.used.idx then some (s.gotoIntr c .body)
    else some (s.gotoIntr c .leave)
  | .body =>
    match handle s with
    | .error msg => some (s.fail msg)
    | .ok t => some (t.gotoIntr c .look)
  | .leave => some (s.release.gotoIntr c .off)

/-! ## The device -/

def descAt (d : Disk B) (i : Nat) : Option (Desc B) :=
  if h : i < NUM then some (d.desc ⟨i, h⟩) else none

/-- The request a chain stands for, as the device reads it from the descriptors: the
header, the buffer and where the status goes. -/
def readChain (d : Disk B) (head : Nat) : Option (BlkReq × B × Fin NUM) := do
  let d0 ← descAt d head
  let d1 ← descAt d d0.next
  let d2 ← descAt d d1.next
  match d0.addr, d1.addr, d2.addr with
  | .op i, .data b, .status j =>
    let q := d.ops i
    if d0.len = 16 ∧ d0.flags = VRING_DESC_F_NEXT ∧ d1.len = 1024 ∧
        d1.flags = (if q.type = VIRTIO_BLK_T_OUT then 0 else VRING_DESC_F_WRITE) |||
          VRING_DESC_F_NEXT ∧
        d2.len = 1 ∧ d2.flags = VRING_DESC_F_WRITE then some (q, b, j)
    else none
  | _, _, _ => none

/-- The sectors of the request are written from the buffer, or read into it. -/
def transfer (q : BlkReq) (b : B) : Sys N M B D :=
  if q.type = VIRTIO_BLK_T_OUT then
    { s with image := fun k =>
        if k = q.sector then (s.buf b).data 0
        else if k = q.sector + 1 then (s.buf b).data 1 else s.image k }
  else
    { s with buf := update s.buf b { s.buf b with
        data := fun k => s.image (q.sector + UInt64.ofNat k) } }

/-- The device carries out the `k`-th request it has taken. -/
def devServe (k : Nat) : Option (Sys N M B D) :=
  match s.dev.work[k]? with
  | some (head, false) =>
    (readChain s.disk head).map fun (q, b, j) =>
      let t := transfer s q b
      { t with
        disk := { t.disk with info := update t.disk.info j { t.disk.info j with status := 0 } }
        dev := { t.dev with work := t.dev.work.set k (head, true) } }
  | _ => none

/-- The device posts the `k`-th request it has taken, once carried out. -/
def devPost (k : Nat) : Option (Sys N M B D) :=
  match s.dev.work[k]? with
  | some (head, true) =>
    some { s with
      disk := { s.disk with used :=
        { ring := update s.disk.used.ring (slot NUM s.disk.used.idx.toNat) head
          idx := s.disk.used.idx + 1 } }
      dev := { s.dev with work := s.dev.work.eraseIdx k } }
  | _ => none

/-- The device takes the next entry of the avail ring. -/
def devTake : Option (Sys N M B D) :=
  if s.dev.seen ≠ s.disk.avail.idx then
    some { s with dev :=
      { seen := s.dev.seen + 1
        work := s.dev.work ++ [(s.disk.avail.ring (slot NUM s.dev.seen.toNat), false)] } }
  else none

/-! ## The machine -/

/-- The call a process is in. -/
def PC.rw : PC B → Option (Rw B)
  | .idle | .leave => none
  | .enter r | .alloc r | .sleepFree r | .format r _ | .ring r _ | .bump r _ | .wait r _
  | .sleepBuf r _ | .relock r _ | .finish r _ => some r

/-- What the caller of `virtio_disk_rw` has in the buffer. -/
def setBuf (b : B) (blockno : UInt32) (data : Fin SPB → D) : Sys N M B D :=
  { s with buf := update s.buf b ⟨(s.buf b).disk, blockno, data⟩ }

inductive Act (N M : Nat) (B D : Type)
  -- `virtio_disk_rw` is called, for a block and with the data the buffer has
  | call (p : Fin N) (r : Rw B) (blockno : UInt32) (data : Fin SPB → D)
  | run (p : Fin N)
  | kill (p : Fin N)
  | irq (c : Fin M)
  | intr (c : Fin M)
  | take
  | serve (k : Nat)
  | post (k : Nat)

def step (s : Sys N M B D) : Act N M B D → Option (Sys N M B D)
  | a =>
    if s.panic ≠ none then none
    else match a with
      | .call p r blockno data =>
        if s.pc p = .idle ∧ ∀ q, (s.pc q).rw.map (·.b) ≠ some r.b then
          some ((setBuf s r.b blockno data).goto p (.enter r))
        else none
      | .run p => runProc s p
      | .kill p =>
        match s.pc p with
        | .sleepFree r => some (s.goto p (.enter r))
        | .sleepBuf r x => some (s.goto p (.relock r x))
        | _ => none
      | .irq c => if s.intr c = .off then some (s.gotoIntr c .enter) else none
      | .intr c => runIntr s c
      | .take => devTake s
      | .serve k => devServe s k
      | .post k => devPost s k

/-- `struct disk` after `virtio_disk_init`. -/
def Disk.init : Disk B where
  desc := fun _ => .zero
  avail := ⟨0, fun _ => 0⟩
  used := ⟨0, fun _ => 0⟩
  free := fun _ => true
  usedIdx := 0
  info := fun _ => ⟨none, 0⟩
  ops := fun _ => ⟨0, 0, 0⟩

structure Init : Prop where
  disk : s.disk = Disk.init
  dev : s.dev = ⟨0, []⟩
  lock : s.lock = none
  pc : ∀ p, s.pc p = .idle
  intr : ∀ c, s.intr c = .off
  panic : s.panic = none

end Xv6.Virtio
