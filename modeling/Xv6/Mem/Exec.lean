/-
# `Xv6.Mem.Exec` — `kernel/exec.c`, and the page tables of `kernel/proc.c`

How a user page table is made, loaded with a program and freed.  What a process can
hand to `exec` is input: the answers of `readi` on the file, with the ELF header and
the program headers it holds, and the lengths of the argument strings.  `exec` here
ends where the new image is committed or given up; the process is updated in
`Xv6.Mem.Proc`.
-/
import Xv6.Mem.Vm

namespace Xv6.Mem

/-- What the linker fixes: the first address after the kernel, and the trampoline page. -/
structure Image where
  kend : Nat
  trampoline : Nat
  base : KERNBASE ≤ kend
  fits : kend ≤ PHYSTOP

/-! ## Page tables of processes -/

/-- `t` is the process that the tables are allocated for, `tf` its trapframe. -/
def procPagetable (im : Image) (t tf : Nat) : Kern (Option Pgtbl) := do
  match ← uvmcreate t with
  | none => return none
  | some pt =>
    let (ok, pt) ← mappages t pt TRAMPOLINE PGSIZE im.trampoline ⟨true, false, true, false⟩
    if ok = false then do
      uvmfree im.kend pt 0
      return none
    else do
      let (ok, pt) ← mappages t pt TRAPFRAME PGSIZE tf ⟨true, true, false, false⟩
      if ok = false then do
        let pt ← uvmunmap im.kend pt TRAMPOLINE 1 false
        uvmfree im.kend pt 0
        return none
      else return some pt

def procFreepagetable (im : Image) (pt : Pgtbl) (sz : Nat) : Kern Unit := do
  let pt ← uvmunmap im.kend pt TRAMPOLINE 1 false
  let pt ← uvmunmap im.kend pt TRAPFRAME 1 false
  uvmfree im.kend pt sz

/-! ## Programs -/

def ELF_MAGIC : UInt32 := 0x464C457F
def ELF_PROG_LOAD : UInt32 := 1

/-- `struct proghdr`, the fields that `exec` tests. -/
structure Proghdr where
  type : UInt32
  flags : UInt32
  vaddr : UInt64
  filesz : UInt64
  memsz : UInt64

/-- What `readi` finds in the file: the magic number of the ELF header and the
program headers, `none` for a short read, and whether page `j` of segment `i` is
there in full. -/
structure Elf where
  magic : Option UInt32
  phdrs : List (Option Proghdr)
  loads : Nat → Nat → Bool

def flags2perm (flags : UInt32) : Perm :=
  ⟨false, flags &&& 2 != 0, flags &&& 1 != 0, false⟩

def loadsegFrom (pt : Pgtbl) (va : Nat) (loads : Nat → Bool) : Nat → Nat → Kern Bool
  | 0, _ => return true
  | n + 1, i =>
    if walkaddr pt ((va + i * PGSIZE) % 2 ^ 64) = 0 then throw "loadseg: address should exist"
    else if loads i = false then return false
    else loadsegFrom pt va loads n (i + 1)

/-- `true` for a return value of 0. -/
def loadseg (pt : Pgtbl) (va sz : Nat) (loads : Nat → Bool) : Kern Bool :=
  loadsegFrom pt va loads ((sz + PGSIZE - 1) / PGSIZE) 0

/-- The loop over the program headers; `false` where it jumps to `bad`. -/
def execLoad (im : Image) (t : Nat) (loads : Nat → Nat → Bool) :
    List (Option Proghdr) → Nat → Pgtbl → Nat → Kern (Bool × Pgtbl × Nat)
  | [], _, pt, sz => return (true, pt, sz)
  | none :: _, _, pt, sz => return (false, pt, sz)
  | some ph :: phs, i, pt, sz =>
    if ph.type ≠ ELF_PROG_LOAD then execLoad im t loads phs (i + 1) pt sz
    else if ph.memsz < ph.filesz then return (false, pt, sz)
    else if ph.vaddr + ph.memsz < ph.vaddr then return (false, pt, sz)
    else if ph.vaddr.toNat % PGSIZE ≠ 0 then return (false, pt, sz)
    else do
      let (sz1, pt) ← uvmalloc im.kend t pt sz (ph.vaddr + ph.memsz).toNat (flags2perm ph.flags)
      if sz1 = 0 then return (false, pt, sz)
      else do
        let ok ← loadseg pt ph.vaddr.toNat ph.filesz.toUInt32.toNat (loads i)
        if ok = false then return (false, pt, sz1)
        else execLoad im t loads phs (i + 1) pt sz1

/-- Subtraction of `uint64`s. -/
def sub64 (a b : Nat) : Nat := (a + 2 ^ 64 - b) % 2 ^ 64

/-- The loop that pushes the argument strings: `argc` and `sp` after it. -/
def pushArgs (pt : Pgtbl) (stackbase : Nat) : List Nat → Nat → Nat → Option (Nat × Nat)
  | [], argc, sp => some (argc, sp)
  | len :: argv, argc, sp =>
    if MAXARG ≤ argc then none
    else
      let sp := sub64 sp (len + 1)
      let sp := sp - sp % 16
      if sp < stackbase then none
      else if copyout pt sp (len + 1) = false then none
      else pushArgs pt stackbase argv (argc + 1) sp

/-- The argument strings, and the array of pointers to them below: `argc`. -/
def execStack (pt : Pgtbl) (sz : Nat) (argv : List Nat) : Option Nat :=
  let stackbase := sz - USERSTACK * PGSIZE
  match pushArgs pt stackbase argv 0 sz with
  | none => none
  | some (argc, sp) =>
    let sp := sub64 sp ((argc + 1) * 8)
    let sp := sp - sp % 16
    if sp < stackbase then none
    else if copyout pt sp ((argc + 1) * 8) = false then none
    else some argc

/-- The new image: its page table and size, and `argc`. -/
structure Loaded where
  pagetable : Pgtbl
  sz : Nat
  argc : Nat

/-- The label `bad` of `exec`. -/
def execBad (im : Image) (pt : Pgtbl) (sz : Nat) : Kern (Option Loaded) := do
  procFreepagetable im pt sz
  return none

/-- `exec` from the point where the segments are loaded. -/
def execFrom (im : Image) (t : Nat) (argv : List Nat) (pt : Pgtbl) (sz : Nat) :
    Kern (Option Loaded) := do
  let (sz1, pt) ← uvmalloc im.kend t pt sz ((sz + (USERSTACK + 1) * PGSIZE) % 2 ^ 64)
    ⟨false, true, false, false⟩
  if sz1 = 0 then execBad im pt sz
  else do
    let sz := sz1
    let pt ← uvmclear pt (sz - (USERSTACK + 1) * PGSIZE)
    match execStack pt sz argv with
    | none => execBad im pt sz
    | some argc => return some ⟨pt, sz, argc⟩

/-- `exec` up to the commit, for a process with trapframe `tf`.  `none` stands for
the return value -1; `file` is what `namei` found. -/
def execImage (im : Image) (t tf : Nat) (file : Option Elf) (argv : List Nat) :
    Kern (Option Loaded) := do
  match file with
  | none => return none
  | some elf =>
    if elf.magic ≠ some ELF_MAGIC then return none
    else
      match ← procPagetable im t tf with
      | none => return none
      | some pt =>
        let (ok, pt, sz) ← execLoad im t elf.loads elf.phdrs 0 pt 0
        if ok = false then execBad im pt sz
        else execFrom im t argv pt (PGROUNDUP sz)

end Xv6.Mem
