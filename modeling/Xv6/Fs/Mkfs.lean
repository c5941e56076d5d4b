/-
# `Xv6.Fs.Mkfs` — `mkfs/mkfs.c`

The program that builds the file-system image, as a function from its input files
to the image it leaves.  A failed assertion, and `die`, end it with an error.  The
image has `FSSIZE` sectors: the loop of `main` that writes zeros is where it starts,
and a sector behind the last cannot be read.

`freeblock`, `freeinode` and sizes are `uint`; they stay far below `2 ^ 32` while
the input fits.
-/
import Xv6.Fs.Image

namespace Xv6.Fs.Mkfs

abbrev NINODES : Nat := 200

/-- Disk layout:
[ boot block | sb block | log | inode blocks | free bit map | data blocks ] -/
abbrev nbitmap : Nat := FSSIZE / BPB + 1
abbrev ninodeblocks : Nat := NINODES / IPB + 1
abbrev nlog : Nat := LOGSIZE

/-- Number of meta blocks (boot, sb, nlog, inode, bitmap). -/
abbrev nmeta : Nat := 2 + nlog + ninodeblocks + nbitmap

/-- Number of data blocks. -/
abbrev nblocks : Nat := FSSIZE - nmeta

def sb : Super where
  magic := FSMAGIC
  size := UInt32.ofNat FSSIZE
  nblocks := UInt32.ofNat nblocks
  ninodes := UInt32.ofNat NINODES
  nlog := UInt32.ofNat nlog
  logstart := 2
  inodestart := UInt32.ofNat (2 + nlog)
  bmapstart := UInt32.ofNat (2 + nlog + ninodeblocks)

structure Mk where
  disk : Disk
  freeinode : Nat
  freeblock : Nat

inductive Fail
  | assertion
  | die (msg : String)
deriving DecidableEq, Repr

abbrev M := StateT Mk (Except Fail)

def assert (p : Prop) [Decidable p] : M Unit := if p then return () else throw .assertion

def rsect (sec : Nat) : M Block := do
  let s ← get
  if sec < FSSIZE then return s.disk sec else throw (.die "read")

def wsect (sec : Nat) (buf : Block) : M Unit :=
  modify fun s => { s with disk := Function.update s.disk sec buf }

def winode (inum : Nat) (ip : Dinode) : M Unit := do
  let bn := sb.IBLOCK inum
  let buf ← rsect bn
  wsect bn (putDinode buf (inum % IPB) ip)

def rinode (inum : Nat) : M Dinode := do
  let bn := sb.IBLOCK inum
  let buf ← rsect bn
  return getDinode buf (inum % IPB)

/-- The inode that `ialloc` writes. -/
def freshInode (type : UInt16) : Dinode := { Dinode.zero with type := type, nlink := 1 }

def ialloc (type : UInt16) : M Nat := do
  let inum := (← get).freeinode
  modify fun s => { s with freeinode := s.freeinode + 1 }
  winode inum (freshInode type)
  return inum

/-- The bitmap that marks the first `used` blocks. -/
def marks (used : Nat) : Block := (List.range used).foldl (fun buf i => buf.setBit i) (Bytes.zero BSIZE)

def balloc (used : Nat) : M Unit := do
  assert (used < BPB)
  wsect sb.bmapstart.toNat (marks used)

/-- `xint(freeblock++)`. -/
def nextBlock : M UInt32 := do
  let b := (← get).freeblock
  modify fun s => { s with freeblock := s.freeblock + 1 }
  return UInt32.ofNat b

/-- `if(xint(din.addrs[k]) == 0) din.addrs[k] = xint(freeblock++)`. -/
def fillAddr (din : Dinode) (k : Fin (NDIRECT + 1)) : M Dinode := do
  if din.addrs k = 0 then
    return din.setAddr k (← nextBlock)
  else
    return din

/-- Entry `j` of the indirect block, allocated if there is none. -/
def fillEntry (ind j : Nat) : M UInt32 := do
  let indirect ← rsect ind
  if indirect.u32 (4 * j) = 0 then
    let indirect := indirect.setU32 (4 * j) (← nextBlock)
    wsect ind indirect
    return indirect.u32 (4 * j)
  else
    return indirect.u32 (4 * j)

/-- The address `x` of block `fbn` in `iappend`, allocated if there is none. -/
def mapBlock (din : Dinode) (fbn : Nat) : M (Dinode × UInt32) := do
  if h : fbn < NDIRECT then
    let din ← fillAddr din ⟨fbn, by omega⟩
    return (din, din.addrs ⟨fbn, by omega⟩)
  else
    let din ← fillAddr din (Fin.last NDIRECT)
    let x ← fillEntry din.ind.toNat (fbn - NDIRECT)
    return (din, x)

/-- How many bytes go into the block that has byte `off`. -/
def chunk (off n : Nat) : Nat := min n ((off / BSIZE + 1) * BSIZE - off)

theorem chunk_pos {off n : Nat} (h : 0 < n) : 0 < chunk off n := by
  simp only [chunk, BSIZE]
  omega

/-- The loop of `iappend`, on the bytes that are left. -/
def iappendLoop (din : Dinode) (off : Nat) (p : List UInt8) : M (Dinode × Nat) :=
  if _h : p = [] then return (din, off)
  else do
    let fbn := off / BSIZE
    assert (fbn < MAXFILE)
    let (din, x) ← mapBlock din fbn
    let n1 := chunk off p.length
    let buf ← rsect x.toNat
    wsect x.toNat (buf.patch (off - fbn * BSIZE) (p.take n1))
    iappendLoop din (off + n1) (p.drop n1)
termination_by p.length
decreasing_by
  have : 0 < p.length := List.length_pos_iff.mpr ‹_›
  have := @chunk_pos off _ this
  rw [List.length_drop]
  omega

def iappend (inum : Nat) (p : List UInt8) : M Unit := do
  let din ← rinode inum
  let (din, off) ← iappendLoop din din.size.toNat p
  winode inum (din.setSize (UInt32.ofNat off))

/-! ## main -/

/-- An argument, and what the file has. -/
structure HostFile where
  arg : List UInt8
  bytes : List UInt8

def UNDERSCORE : UInt8 := 95

/-- `"user/"`. -/
def userSlash : List UInt8 := [117, 115, 101, 114, 47]

/-- The name a file gets: without `user/` in front, and then without a leading `_`. -/
def shortname (arg : List UInt8) : Option Name :=
  let short := if userSlash.isPrefixOf arg then arg.drop 5 else arg
  if SLASH ∈ short then none
  else
    let short := if short.head? = some UNDERSCORE then short.tail else short
    if short.length ≤ DIRSIZ then some short else none

/-- `while((cc = read(fd, buf, sizeof(buf))) > 0) iappend(inum, buf, cc)`, on what is
left to read. -/
def appendFile (inum : Nat) (l : List UInt8) : M Unit :=
  if _h : l = [] then return ()
  else do
    iappend inum (l.take BSIZE)
    appendFile inum (l.drop BSIZE)
termination_by l.length
decreasing_by
  have : 0 < l.length := List.length_pos_iff.mpr ‹_›
  rw [List.length_drop]
  simp only [BSIZE]
  omega

/-- The body of the loop over the arguments. -/
def addFile (rootino : Nat) (f : HostFile) : M Unit := do
  match shortname f.arg with
  | none => throw .assertion
  | some short =>
    let inum ← ialloc T_FILE
    iappend rootino (Dirent.bytes ⟨UInt16.ofNat inum, short⟩)
    appendFile inum f.bytes

def main (files : List HostFile) : M Unit := do
  wsect 1 sb.toBlock
  let rootino ← ialloc T_DIR
  assert (rootino = ROOTINO)
  iappend rootino (Dirent.bytes ⟨UInt16.ofNat rootino, dot⟩)
  iappend rootino (Dirent.bytes ⟨UInt16.ofNat rootino, dotdot⟩)
  files.forM (addFile rootino)
  -- fix size of root inode dir
  let din ← rinode rootino
  let off := din.size.toNat
  winode rootino (din.setSize (UInt32.ofNat ((off / BSIZE + 1) * BSIZE)))
  balloc (← get).freeblock

/-- The image after the loop that writes zeros. -/
def zeroes : Mk := ⟨fun _ => Bytes.zero BSIZE, 1, nmeta⟩

/-- The image `mkfs` leaves for these input files. -/
def image (files : List HostFile) : Except Fail Disk := ((main files).run zeroes).map (·.2.disk)

end Xv6.Fs.Mkfs
