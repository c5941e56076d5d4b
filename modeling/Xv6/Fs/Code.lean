/-
# `Xv6.Fs.Code` — `kernel/fs.c` on the blocks of the disk

The functions of `fs.c`, and `filewrite`, as programs over the buffer cache (`bread`,
access to a buffer's data, `log_write`, `brelse`) and over the inode and file tables in
memory.  `B` is a `struct buf *`.  `inoCode` puts them in the place of
the operations that the system calls of `Xv6.Fs.Sysfile` are written with.

  * The superblock is a parameter.
  * Loops run over the list of what they visit; those of `readi`, `writei` and `filewrite`
    over a number of rounds that is enough.
  * A source in user memory is the list of the bytes that can be read there: `copyin`
    fails when it comes to their end, having copied what is before.  A destination in user
    memory is the number of bytes that can be written.
-/
import Xv6.Fs.Image
import Xv6.Fs.Sysfile

namespace Xv6.Fs

open Machine

/-- A `struct inode *`: a place in the inode table. -/
abbrev Ptr := Fin NINODE

/-- Operations on the tables in memory. -/
inductive MemOp
  | iget (inum : Nat)
  | idupCwd
  | acquiresleep (ip : Ptr)
  | releasesleep (ip : Ptr)
  | iputTest (ip : Ptr)
  | ideref (ip : Ptr)
  | ref (ip : Ptr)
  | holding (ip : Ptr)
  | inum (ip : Ptr)
  | valid (ip : Ptr)
  | setValid (ip : Ptr) (v : Bool)
  | din (ip : Ptr)
  | setDin (ip : Ptr) (x : Dinode)
  | setFile (f : FilePtr) (x : File Ptr)
  | getFile (f : FilePtr)

def MemOp.Res : MemOp → Type
  | .iget _ | .idupCwd => Ptr
  | .iputTest _ | .holding _ | .valid _ => Bool
  | .ref _ | .inum _ => Nat
  | .din _ => Dinode
  | .getFile _ => Option (File Ptr)
  | _ => Unit

inductive FsOp (B : Type)
  | bread (b : Nat)
  | getData (bp : B)
  | setData (bp : B) (d : Block)
  | logWrite (bp : B)
  | brelse (bp : B)
  | beginOp
  | endOp
  | panic (msg : String)
  | mem (o : MemOp)

def FsOp.Res {B : Type} : FsOp B → Type
  | .bread _ => B
  | .getData _ => Block
  | .panic _ => Empty
  | .mem o => o.Res
  | _ => Unit

abbrev FsSig (B : Type) : Sig := ⟨FsOp B, FsOp.Res⟩

section
variable {B : Type}

abbrev call (o : FsOp B) : Prog (FsSig B) o.Res := Prog.call (S := FsSig B) o

abbrev bread (b : Nat) : Prog (FsSig B) B := call (.bread b)
abbrev getData (bp : B) : Prog (FsSig B) Block := call (.getData bp)
abbrev setData (bp : B) (d : Block) : Prog (FsSig B) Unit := call (.setData bp d)
abbrev logWrite (bp : B) : Prog (FsSig B) Unit := call (.logWrite bp)
abbrev brelse (bp : B) : Prog (FsSig B) Unit := call (.brelse bp)
abbrev beginOp : Prog (FsSig B) Unit := call .beginOp
abbrev endOp : Prog (FsSig B) Unit := call .endOp

namespace Mem

variable (ip : Ptr)

abbrev op (o : MemOp) : Prog (FsSig B) o.Res := call (.mem o)

abbrev iget (inum : Nat) : Prog (FsSig B) Ptr := op (.iget inum)
abbrev idupCwd : Prog (FsSig B) Ptr := op .idupCwd
abbrev acquiresleep : Prog (FsSig B) Unit := op (.acquiresleep ip)
abbrev releasesleep : Prog (FsSig B) Unit := op (.releasesleep ip)
abbrev iputTest : Prog (FsSig B) Bool := op (.iputTest ip)
abbrev ideref : Prog (FsSig B) Unit := op (.ideref ip)
abbrev ref : Prog (FsSig B) Nat := op (.ref ip)
abbrev holding : Prog (FsSig B) Bool := op (.holding ip)
abbrev inum : Prog (FsSig B) Nat := op (.inum ip)
abbrev valid : Prog (FsSig B) Bool := op (.valid ip)
abbrev setValid (v : Bool) : Prog (FsSig B) Unit := op (.setValid ip v)
abbrev din : Prog (FsSig B) Dinode := op (.din ip)
abbrev setDin (x : Dinode) : Prog (FsSig B) Unit := op (.setDin ip x)
abbrev setFile (f : FilePtr) (x : File Ptr) : Prog (FsSig B) Unit := op (.setFile f x)
abbrev getFile (f : FilePtr) : Prog (FsSig B) (Option (File Ptr)) := op (.getFile f)

end Mem

def panic {α : Type} (msg : String) : Prog (FsSig B) α := do
  let e ← call (.panic msg)
  nomatch e

end

section
variable {B : Type} (sb : Super)

/-! ## Blocks -/

/-- Zero a block. -/
def bzero (bno : Nat) : Prog (FsSig B) Unit := do
  let bp ← bread bno
  setData bp (Bytes.zero BSIZE)
  logWrite bp
  brelse bp

/-- The first free bit of the bitmap block for the blocks from `b` on. -/
@[irreducible] def freeBit (data : Block) (b : Nat) : Option Nat :=
  (List.range BPB).find? fun bi => b + bi < sb.size.toNat && !data.bit bi

def ballocFrom : List Nat → Prog (FsSig B) UInt32
  | [] => return 0
  | b :: bs => do
    let bp ← bread (sb.BBLOCK b)
    let data ← getData bp
    match freeBit sb data b with
    | some bi => do
      setData bp (data.setBit bi)
      logWrite bp
      brelse bp
      bzero (b + bi)
      return UInt32.ofNat (b + bi)
    | none => do
      brelse bp
      ballocFrom bs

/-- Allocate a zeroed disk block. Returns 0 if out of disk space. -/
def balloc : Prog (FsSig B) UInt32 :=
  ballocFrom sb ((List.range ((sb.size.toNat + BPB - 1) / BPB)).map (· * BPB))

/-- Free a disk block. -/
def bfree (b : UInt32) : Prog (FsSig B) Unit := do
  let bp ← bread (sb.BBLOCK b.toNat)
  let data ← getData bp
  if data.bit (b.toNat % BPB) = false then
    panic "freeing free block"
  else
    setData bp (data.clearBit (b.toNat % BPB))
    logWrite bp
    brelse bp

/-! ## Inodes -/

variable (ip : Ptr)

/-- Copy a modified in-memory inode to disk. -/
def iupdate : Prog (FsSig B) Unit := do
  let inum ← Mem.inum ip
  let bp ← bread (sb.IBLOCK inum)
  let data ← getData bp
  let x ← Mem.din ip
  setData bp (putDinode data (inum % IPB) x)
  logWrite bp
  brelse bp

/-- Lock the given inode. Reads the inode from disk if necessary. -/
def ilock (ip : Ptr) : Prog (FsSig B) Unit := do
  if (← Mem.ref ip) < 1 then panic "ilock"
  else
    Mem.acquiresleep ip
    if ← Mem.valid ip then return ()
    else
      let inum ← Mem.inum ip
      let bp ← bread (sb.IBLOCK inum)
      let data ← getData bp
      Mem.setDin ip (getDinode data (inum % IPB))
      brelse bp
      Mem.setValid ip true
      if (getDinode data (inum % IPB)).type = 0 then panic "ilock: no type"
      else return ()

/-- Unlock the given inode. -/
def iunlock (ip : Ptr) : Prog (FsSig B) Unit := do
  if (← Mem.holding ip) = false then panic "iunlock"
  else if (← Mem.ref ip) < 1 then panic "iunlock"
  else Mem.releasesleep ip

/-! ## Inode content -/

/-- The entry of an indirect block, allocated if there is none. -/
def bmapEntry (ind : UInt32) (bn : Nat) : Prog (FsSig B) UInt32 := do
  let bp ← bread ind.toNat
  let a ← getData bp
  if a.u32 (4 * bn) = 0 then
    let addr ← balloc sb
    if addr ≠ 0 then
      setData bp (a.setU32 (4 * bn) addr)
      logWrite bp
    brelse bp
    return addr
  else
    brelse bp
    return a.u32 (4 * bn)

/-- `ip->addrs[k]`, allocated if there is none. -/
def bmapAddr (k : Fin (NDIRECT + 1)) : Prog (FsSig B) UInt32 := do
  let x ← Mem.din ip
  if x.addrs k = 0 then
    let addr ← balloc sb
    if addr ≠ 0 then
      Mem.setDin ip (x.setAddr k addr)
    return addr
  else
    return x.addrs k

/-- Return the disk block address of the nth block in inode `ip`. If there is no such
block, bmap allocates one. Returns 0 if out of disk space. -/
def bmap (ip : Ptr) (bn : Nat) : Prog (FsSig B) UInt32 :=
  if h : bn < NDIRECT then bmapAddr sb ip ⟨bn, Nat.lt_succ_of_lt h⟩
  else if bn - NDIRECT < NINDIRECT then do
    let addr ← bmapAddr sb ip (Fin.last NDIRECT)
    if addr = 0 then return 0
    else bmapEntry sb addr (bn - NDIRECT)
  else panic "bmap: out of range"

def itruncDirect (ip : Ptr) : List (Fin NDIRECT) → Prog (FsSig B) Unit
  | [] => return ()
  | i :: is => do
    let x ← Mem.din ip
    if x.addrs i.castSucc ≠ 0 then
      bfree sb (x.addrs i.castSucc)
      Mem.setDin ip (x.setAddr i.castSucc 0)
    itruncDirect ip is

def itruncEntries (a : Block) : List Nat → Prog (FsSig B) Unit
  | [] => return ()
  | j :: js => do
    if a.u32 (4 * j) ≠ 0 then
      bfree sb (a.u32 (4 * j))
    itruncEntries a js

/-- Truncate inode (discard contents). -/
def itrunc : Prog (FsSig B) Unit := do
  itruncDirect sb ip (List.finRange NDIRECT)
  let x ← Mem.din ip
  if x.ind ≠ 0 then
    let bp ← bread x.ind.toNat
    let a ← getData bp
    itruncEntries sb a (List.range NINDIRECT)
    brelse bp
    bfree sb x.ind
    Mem.setDin ip (x.setAddr (Fin.last NDIRECT) 0)
  let x ← Mem.din ip
  Mem.setDin ip (x.setSize 0)
  iupdate sb ip

/-- How many bytes of a transfer lie in the block of byte `off`. -/
def inBlock (off left : Nat) : Nat := min left (BSIZE - off % BSIZE)

/-- The loop of `readi`: `tot` of the `n` bytes are copied, the next is byte `off` of the
file.  Answers the return value and the bytes that are copied. -/
def readiLoop (ip : Ptr) (dst : Option Nat) (n : Nat) :
    Nat → Nat → Nat → Prog (FsSig B) (Int × List UInt8)
  | 0, _, tot => return (tot, [])
  | fuel + 1, off, tot => do
    if tot < n then
      let addr ← bmap sb ip (off / BSIZE)
      if addr = 0 then return (tot, [])
      else
        let bp ← bread addr.toNat
        let data ← getData bp
        let m := inBlock off (n - tot)
        if (dst.all (tot + m ≤ ·)) = false then
          brelse bp
          return (-1, [])
        else
          brelse bp
          let (r, l) ← readiLoop ip dst n fuel (off + m) (tot + m)
          return (r, data.slice (off % BSIZE) m ++ l)
    else return (tot, [])

/-- Read data from inode. `dst` is `none` for a kernel address. -/
def readi (dst : Option Nat) (off n : UInt32) : Prog (FsSig B) (Int × List UInt8) := do
  let size := (← Mem.din ip).size
  if size < off ∨ off + n < off then return (0, [])
  else
    let n := if size < off + n then size - off else n
    readiLoop sb ip dst n.toNat (n.toNat / BSIZE + 2) off.toNat 0

/-- The loop of `writei`.  Answers `tot` and `off`. -/
def writeiLoop (ip : Ptr) (src : List UInt8) (n : Nat) : Nat → Nat → Nat → Prog (FsSig B) (Nat × Nat)
  | 0, off, tot => return (tot, off)
  | fuel + 1, off, tot => do
    if tot < n then
      let addr ← bmap sb ip (off / BSIZE)
      if addr = 0 then return (tot, off)
      else
        let bp ← bread addr.toNat
        let data ← getData bp
        let m := inBlock off (n - tot)
        if src.length < tot + m then
          -- copyin fails, with the pages before the fault copied
          if tot < src.length then
            setData bp (data.patch (off % BSIZE) (src.drop tot))
          brelse bp
          return (tot, off)
        else
          setData bp (data.patch (off % BSIZE) ((src.drop tot).take m))
          logWrite bp
          brelse bp
          writeiLoop ip src n fuel (off + m) (tot + m)
    else return (tot, off)

/-- Write data to inode. -/
def writei (src : List UInt8) (off n : UInt32) : Prog (FsSig B) Int := do
  let size := (← Mem.din ip).size
  if size < off ∨ off + n < off then return -1
  else if MAXFILE * BSIZE < (off + n).toNat then return -1
  else
    let (tot, off) ← writeiLoop sb ip src n.toNat (n.toNat / BSIZE + 2) off.toNat 0
    let x ← Mem.din ip
    if x.size.toNat < off then
      Mem.setDin ip (x.setSize (UInt32.ofNat off))
    iupdate sb ip
    return tot

/-! ## Directories -/

/-- Number of entries of a directory, one that the size cuts off included. -/
def nentries (x : Dinode) : Nat := (x.size.toNat + 15) / 16

/-- `readi(dp, 0, &de, off, sizeof(de)) != sizeof(de)` panics with `msg`. -/
def readDirent (msg : String) (dp : Ptr) (k : Nat) : Prog (FsSig B) Dirent := do
  let (r, l) ← readi sb dp none (UInt32.ofNat (16 * k)) 16
  if r ≠ 16 then panic msg
  else return Dirent.ofBytes l

def dirlookupFrom (dp : Ptr) (name : Name) : List Nat → Prog (FsSig B) (Option (Ptr × Nat))
  | [] => return none
  | k :: ks => do
    let de ← readDirent sb "dirlookup read" dp k
    if de.inum = 0 then dirlookupFrom dp name ks
    else if name = de.name then
      let ip ← Mem.iget de.inum.toNat
      return some (ip, k)
    else dirlookupFrom dp name ks

/-- Look for a directory entry in a directory. -/
def dirlookup (dp : Ptr) (name : Name) : Prog (FsSig B) (Option (Ptr × Nat)) := do
  let x ← Mem.din dp
  if x.type ≠ T_DIR then panic "dirlookup not DIR"
  else dirlookupFrom sb dp name (List.range (nentries x))

/-! ## The operations behind the system calls -/

/-- Change the copy in memory and write it back. -/
def updateInode (g : Dinode → Dinode) : Prog (FsSig B) Unit := do
  let x ← Mem.din ip
  Mem.setDin ip (g x)
  iupdate sb ip

def inoCode : (o : InoOp Ptr) → Prog (FsSig B) o.Res
  | .igetRoot => Mem.iget ROOTINO
  | .idupCwd => Mem.idupCwd
  | .ilock ip => ilock sb ip
  | .iunlock ip => iunlock ip
  | .iputTest ip => Mem.iputTest ip
  | .ifree ip => (do
    itrunc sb ip
    updateInode sb ip fun x => { x with type := 0 }
    Mem.setValid ip false
    Mem.releasesleep ip : Prog (FsSig B) Unit)
  | .ideref ip => Mem.ideref ip
  | .type ip => (do return (← Mem.din ip).type : Prog (FsSig B) UInt16)
  | .dirlookup dp name => dirlookup sb dp name

/-- A system call, down to the blocks. -/
def onBlocks {α : Type} (m : Prog (InoSig Ptr) α) : Prog (FsSig B) α := m.lower (inoCode sb)

/-! ## file.c -/

/-- `((MAXOPBLOCKS-1-1-2) / 2) * BSIZE`. -/
abbrev writeMax : Nat := (MAXOPBLOCKS - 1 - 1 - 2) / 2 * BSIZE

/-- One round of the loop of `filewrite`.  Others do not run while the inode is locked,
which is where `f->off` is read and advanced. -/
def filewriteRound (f : FilePtr) (src : List UInt8) (n1 : Nat) : Prog (FsSig B) Int := do
  match ← Mem.getFile f with
  | none => return -1
  | some x => do
    beginOp
    ilock sb x.ip
    let r ← writei sb x.ip src (UInt32.ofNat x.off) (UInt32.ofNat n1)
    if 0 < r then
      Mem.setFile f { x with off := x.off + r.toNat }
    iunlock x.ip
    endOp
    return r

/-- The loop of `filewrite`, `i` of the `n` bytes being written. -/
def filewriteLoop (f : FilePtr) (src : List UInt8) (n : Nat) : Nat → Nat → Prog (FsSig B) Int
  | 0, _ => return -1
  | fuel + 1, i => do
    if i < n then
      let n1 := min (n - i) writeMax
      let r ← filewriteRound sb f (src.drop i) n1
      if r ≠ n1 then return -1
      else filewriteLoop f src n fuel (i + n1)
    else return n

/-- `filewrite` on an inode, `src` being what can be read of the user's buffer. -/
def filewrite (f : FilePtr) (src : List UInt8) (n : Nat) : Prog (FsSig B) Int := do
  match ← Mem.getFile f with
  | none => return -1
  | some x => do
    if x.writable = false ∨ x.kind ≠ .inode then return -1
    else filewriteLoop sb f src n (n / writeMax + 2) 0

end

end Xv6.Fs
