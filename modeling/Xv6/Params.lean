/-
# `Xv6.Params` — the constants of `kernel/param.h`, `fs.h`, `riscv.h` and `memlayout.h`
-/
import Mathlib.Data.UInt

namespace Xv6

/-- Block size. -/
abbrev BSIZE : Nat := 1024

/-- Maximum number of blocks any file-system operation writes. -/
abbrev MAXOPBLOCKS : Nat := 10

/-- Maximum number of data blocks in the on-disk log. -/
abbrev LOGSIZE : Nat := MAXOPBLOCKS * 3

/-- Size of the disk block cache. -/
abbrev NBUF : Nat := MAXOPBLOCKS * 3

/-- Device number of the file-system root disk. -/
abbrev ROOTDEV : UInt32 := 1

/-! ## The file system on disk -/

abbrev FSMAGIC : UInt32 := 0x10203040

/-- Root i-number. -/
abbrev ROOTINO : Nat := 1

abbrev NDIRECT : Nat := 12
abbrev NINDIRECT : Nat := 256

/-- Maximum number of blocks of a file. -/
abbrev MAXFILE : Nat := NDIRECT + NINDIRECT

/-- Inodes per block: a `struct dinode` has 64 bytes. -/
abbrev IPB : Nat := 16

/-- Bitmap bits per block. -/
abbrev BPB : Nat := 8192

/-- Size of the file system in blocks. -/
abbrev FSSIZE : Nat := 2000

/-- Maximum number of active i-nodes. -/
abbrev NINODE : Nat := 50

abbrev T_DIR : UInt16 := 1
abbrev T_FILE : UInt16 := 2

/-! ## Processes and files -/

abbrev NPROC : Nat := 64
abbrev NOFILE : Nat := 16
abbrev NFILE : Nat := 100
abbrev MAXARG : Nat := 32
abbrev MAXPATH : Nat := 128
abbrev NDEV : Nat := 10

/-- Length of a name in a directory entry. -/
abbrev DIRSIZ : Nat := 14

/-- User stack pages (`LAB_UTIL`). -/
abbrev USERSTACK : Nat := 2

/-! ## Memory -/

abbrev PGSIZE : Nat := 4096

/-- One beyond the highest possible virtual address. -/
abbrev MAXVA : Nat := 2 ^ 38

abbrev KERNBASE : Nat := 0x80000000
abbrev PHYSTOP : Nat := KERNBASE + 128 * 1024 * 1024
abbrev TRAMPOLINE : Nat := MAXVA - PGSIZE
abbrev TRAPFRAME : Nat := TRAMPOLINE - PGSIZE

/-- On a `uint64`. -/
def PGROUNDUP (sz : Nat) : Nat := (sz + PGSIZE - 1) % 2 ^ 64 / PGSIZE * PGSIZE

def PGROUNDDOWN (a : Nat) : Nat := a / PGSIZE * PGSIZE

end Xv6
