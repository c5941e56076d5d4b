/-
# `Xv6.Exec.Code` — `exec` with the bytes of the file and of the new image

`Xv6.Mem.Exec` has what `exec` does to page tables; here is the whole function, on a
file given by its bytes and on physical memory.  The state is what `exec` reads and
changes: the allocator and memory, the inode that `namei` finds with its lock and its
reference, the number of file-system operations that have begun and not ended, and
the process.  Memory stands for the contents of user pages; what the allocator writes
into free pages and what page tables hold is not in it.

`uint` is `UInt32`, `uint64` is `UInt64` in the headers and a `Nat` below `2 ^ 64`
where it is an address.  The loop of `loadseg` counts in `uint`s, so it need not end:
it has the rounds that such a counter has, and one more is an error.
-/
import Xv6.Mem.Copy
import Xv6.Mem.Exec

namespace Xv6.Exec

open Machine Xv6.Mem Xv6.Vm

/-! ## The state -/

structure Ram where
  kmem : Kmem
  mem : Phys

/-- Code that allocates, frees and writes pages, and may panic. -/
abbrev RamM := StateT Ram (Except String)

/-- Code that only touches the allocator. -/
def onKmem {α : Type} (m : Kern α) : RamM α := fun r => do
  let (a, k) ← m r.kmem
  return (a, ⟨k, r.mem⟩)

/-- Code that only touches memory. -/
def onMem {α : Type} (f : Phys → Except String (α × Phys)) : RamM α := fun r => do
  let (a, m) ← f r.mem
  return (a, ⟨r.kmem, m⟩)

/-- The inode that `path` names. -/
structure Inode where
  locked : Bool
  ref : Nat

/-- The registers in a trapframe that `exec` sets. -/
structure Trapframe where
  epc : UInt64
  sp : Nat
  a1 : Nat

structure Proc where
  pid : Nat
  /-- The page of the trapframe. -/
  trapframe : Pa
  regs : Trapframe
  pagetable : Pgtbl
  sz : Nat
  name : List UInt8

structure Sys where
  ram : Ram
  ip : Inode
  /-- `log.outstanding`. -/
  outstanding : Nat
  proc : Proc

abbrev Call := StateT Sys (Except String)

def onRam {α : Type} (m : RamM α) : Call α := fun s => do
  let (a, r) ← m s.ram
  return (a, { s with ram := r })

def beginOp : Call Unit := modify fun s => { s with outstanding := s.outstanding + 1 }
def endOp : Call Unit := modify fun s => { s with outstanding := s.outstanding - 1 }

/-- `namei` takes a reference to the inode. -/
def iget : Call Unit := modify fun s => { s with ip := { s.ip with ref := s.ip.ref + 1 } }
def ilock : Call Unit := modify fun s => { s with ip := { s.ip with locked := true } }
def iunlockput : Call Unit := modify fun s => { s with ip := ⟨false, s.ip.ref - 1⟩ }

/-! ## Files -/

/-- `readi(ip, 0, dst, off, n)` for a file with the contents `data`: the bytes it
copies.  It returns their number. -/
def readi (data : List UInt8) (off n : UInt32) : List UInt8 :=
  if data.length < off.toNat ∨ off + n < off then []
  else
    let n := if data.length < (off + n).toNat then data.length - off.toNat else n.toNat
    (data.drop off.toNat).take n

/-- A field of `n` bytes at `off` of a structure. -/
def field (bs : List UInt8) (off n : Nat) : Nat := leWord ((bs.drop off).take n)

/-- `struct elfhdr`, the fields that `exec` reads. -/
structure Elfhdr where
  magic : UInt32
  entry : UInt64
  phoff : UInt64
  phnum : UInt16

def Elfhdr.ofBytes (bs : List UInt8) : Elfhdr where
  magic := .ofNat (field bs 0 4)
  entry := .ofNat (field bs 24 8)
  phoff := .ofNat (field bs 32 8)
  phnum := .ofNat (field bs 56 2)

/-- `struct proghdr`. -/
structure Proghdr extends Mem.Proghdr where
  off : UInt64

def Proghdr.ofBytes (bs : List UInt8) : Proghdr where
  type := .ofNat (field bs 0 4)
  flags := .ofNat (field bs 4 4)
  off := .ofNat (field bs 8 8)
  vaddr := .ofNat (field bs 16 8)
  filesz := .ofNat (field bs 32 8)
  memsz := .ofNat (field bs 40 8)

/-! ## Memory -/

@[irreducible] def memset (dst : Nat) (c : UInt8) (n : Nat) : Phys → Phys :=
  poke id dst (List.replicate n c)

def write (f : Phys → Phys) : RamM Unit := modify fun r => ⟨r.kmem, f r.mem⟩

def uvmallocFrom (e t : Nat) (xperm : Perm) (oldsz newsz : Nat) :
    Nat → Pgtbl → Nat → RamM (Nat × Pgtbl)
  | 0, pt, _ => return (newsz, pt)
  | n + 1, pt, a => do
    match ← onKmem (kalloc t) with
    | none =>
      let (_, pt) ← onKmem (uvmdealloc e pt a oldsz)
      return (0, pt)
    | some mem => do
      write (memset mem 0 PGSIZE)
      let (ok, pt) ← onKmem (mappages t pt a PGSIZE mem ⟨true, xperm.w, xperm.x, true⟩)
      if ok = false then do
        onKmem (kfree e mem)
        let (_, pt) ← onKmem (uvmdealloc e pt a oldsz)
        return (0, pt)
      else uvmallocFrom e t xperm oldsz newsz n pt (a + PGSIZE)

/-- The new size or 0, and the table. -/
def uvmalloc (e t : Nat) (pt : Pgtbl) (oldsz newsz : Nat) (xperm : Perm) : RamM (Nat × Pgtbl) :=
  if newsz < oldsz then return (oldsz, pt)
  else
    let oldsz := PGROUNDUP oldsz
    uvmallocFrom e t xperm oldsz newsz ((newsz - oldsz + PGSIZE - 1) / PGSIZE) pt oldsz

def loadsegFrom (pt : Pgtbl) (va : Nat) (data : List UInt8) (offset sz : UInt32) :
    Nat → UInt32 → RamM Bool
  | 0, _ => throw "loadseg: no end"
  | rounds + 1, i =>
    if i < sz then
      let pa := Mem.walkaddr pt ((va + i.toNat) % 2 ^ 64)
      if pa = 0 then throw "loadseg: address should exist"
      else do
        let n := if sz - i < 4096 then sz - i else 4096
        let bs := readi data (offset + i) n
        write (memmove pa bs)
        if bs.length ≠ n.toNat then return false
        else loadsegFrom pt va data offset sz rounds (i + 4096)
    else return true

/-- `true` for a return value of 0. -/
def loadseg (pt : Pgtbl) (va : Nat) (data : List UInt8) (offset sz : UInt32) : RamM Bool :=
  loadsegFrom pt va data offset sz (2 ^ 32 / PGSIZE + 1) 0

/-! ## exec -/

/-- The loop over the program headers; `false` where it jumps to `bad`. -/
def loadFrom (im : Image) (t : Nat) (data : List UInt8) :
    Nat → UInt32 → Pgtbl → Nat → RamM (Bool × Pgtbl × Nat)
  | 0, _, pt, sz => return (true, pt, sz)
  | n + 1, off, pt, sz =>
    let bs := readi data off 56
    let ph := Proghdr.ofBytes bs
    if bs.length ≠ 56 then return (false, pt, sz)
    else if ph.type ≠ ELF_PROG_LOAD then loadFrom im t data n (off + 56) pt sz
    else if ph.memsz < ph.filesz then return (false, pt, sz)
    else if ph.vaddr + ph.memsz < ph.vaddr then return (false, pt, sz)
    else if ph.vaddr.toNat % PGSIZE ≠ 0 then return (false, pt, sz)
    else do
      let (sz1, pt) ← uvmalloc im.kend t pt sz (ph.vaddr + ph.memsz).toNat (flags2perm ph.flags)
      if sz1 = 0 then return (false, pt, sz)
      else do
        let ok ← loadseg pt ph.vaddr.toNat data ph.off.toUInt32 ph.filesz.toUInt32
        if ok = false then return (false, pt, sz1)
        else loadFrom im t data n (off + 56) pt sz1

/-- A string of the kernel, without its NUL. -/
structure CString where
  chars : List UInt8
  noNul : 0 ∉ chars

/-- Bytes are put below `sp`: the new `sp`, or `none` where the code jumps to `bad`. -/
def push (pt : Pgtbl) (stackbase sp : Nat) (bs : List UInt8) : RamM (Option Nat) :=
  let sp := sub64 sp bs.length
  let sp := sp - sp % 16
  if sp < stackbase then return none
  else do
    let ok ← onMem (copyout pt sp bs)
    if ok = false then return none else return some sp

/-- The loop that pushes the argument strings: `sp` and `ustack` after it. -/
def pushArgs (pt : Pgtbl) (stackbase : Nat) :
    List CString → Nat → List Nat → RamM (Option (Nat × List Nat))
  | [], sp, ustack => return some (sp, ustack)
  | s :: argv, sp, ustack =>
    if MAXARG ≤ ustack.length then return none
    else do
      match ← push pt stackbase sp (s.chars ++ [0]) with
      | none => return none
      | some sp => pushArgs pt stackbase argv sp (ustack ++ [sp])

/-- The argument strings, and the array of pointers to them below: `sp`. -/
def execStack (pt : Pgtbl) (sz : Nat) (argv : List CString) : RamM (Option Nat) := do
  let stackbase := sz - USERSTACK * PGSIZE
  match ← pushArgs pt stackbase argv sz [] with
  | none => return none
  | some (sp, ustack) =>
    if MAXARG ≤ ustack.length then throw "ustack[MAXARG]"
    else push pt stackbase sp ((ustack ++ [0]).flatMap (leBytes 8))

/-- `bad:`, with `pagetable` if there is one, and whether `ip` is not 0. -/
def bad {α : Type} (im : Image) (pagetable : Option Pgtbl) (sz : Nat) (ip : Bool) :
    Call (Option α) := do
  match pagetable with
  | some pt => onRam (onKmem (procFreepagetable im pt sz))
  | none => pure ()
  if ip then do
    iunlockput
    endOp
  return none

/-- A new image, before the arguments are pushed. -/
structure NewImage where
  pagetable : Pgtbl
  sz : Nat
  entry : UInt64

/-- The pages of the stack, and the inaccessible one below. -/
def addStack (im : Image) (t : Nat) (entry : UInt64) (pt : Pgtbl) (sz : Nat) :
    Call (Option NewImage) := do
  let (sz1, pt) ← onRam (uvmalloc im.kend t pt sz ((sz + (USERSTACK + 1) * PGSIZE) % 2 ^ 64)
    ⟨false, true, false, false⟩)
  if sz1 = 0 then bad im (some pt) sz false
  else do
    let sz := sz1
    let pt ← onRam (onKmem (uvmclear pt (sz - (USERSTACK + 1) * PGSIZE)))
    return some ⟨pt, sz, entry⟩

/-- `exec` up to the call of `uvmclear`; `file` are the contents of what `namei` found. -/
def prepare (im : Image) (file : Option (List UInt8)) : Call (Option NewImage) := do
  let s ← get
  let t := s.proc.pid
  beginOp
  match file with
  | none => do
    endOp
    return none
  | some data => do
    iget
    ilock
    let bs := readi data 0 64
    let elf := Elfhdr.ofBytes bs
    if bs.length ≠ 64 then bad im none 0 true
    else if elf.magic ≠ ELF_MAGIC then bad im none 0 true
    else do
      match ← onRam (onKmem (procPagetable im t s.proc.trapframe)) with
      | none => bad im none 0 true
      | some pt => do
        let (ok, pt, sz) ← onRam (loadFrom im t data elf.phnum.toNat elf.phoff.toUInt32 pt 0)
        if ok = false then bad im (some pt) sz true
        else do
          iunlockput
          endOp
          addStack im t elf.entry pt (PGROUNDUP sz)

/-- What follows the last `/` of a path. -/
def lastOf (path : List UInt8) : List UInt8 := (path.splitOn 47).getLastD []

/-- `safestrcpy(s, t, n)`: the string it stores. -/
def safestrcpy (t : List UInt8) (n : Nat) : List UInt8 := t.take (n - 1)

/-- `exec` from the point where the image and the stack pages are in place. -/
def finish (im : Image) (path : CString) (argv : List CString) (new : NewImage) :
    Call (Option Nat) := do
  match ← onRam (execStack new.pagetable new.sz argv) with
  | none => bad im (some new.pagetable) new.sz false
  | some sp => do
    let old := (← get).proc
    modify fun s => { s with proc := { s.proc with
      regs := ⟨new.entry, sp, sp⟩
      name := safestrcpy (lastOf path.chars) 16
      pagetable := new.pagetable
      sz := new.sz } }
    onRam (onKmem (procFreepagetable im old.pagetable old.sz))
    return some argv.length

/-- `none` stands for a return value of -1. -/
def exec (im : Image) (path : CString) (file : Option (List UInt8)) (argv : List CString) :
    Call (Option Nat) := do
  match ← prepare im file with
  | none => return none
  | some new => finish im path argv new

end Xv6.Exec
