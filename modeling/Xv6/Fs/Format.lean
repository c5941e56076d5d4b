/-
# `Xv6.Fs.Format` — the structures of `kernel/fs.h` in the bytes of a block

`struct superblock`, `struct dinode` and `struct dirent` as they lie in a block,
little-endian.  `short` fields are their 16 bits.
-/
import Xv6.Lib.Bytes
import Xv6.Params

namespace Xv6.Fs

open List

abbrev Block := Bytes BSIZE

/-! ## Superblock -/

structure Super where
  magic : UInt32
  size : UInt32
  nblocks : UInt32
  ninodes : UInt32
  nlog : UInt32
  logstart : UInt32
  inodestart : UInt32
  bmapstart : UInt32
deriving DecidableEq, Repr

/-- `memmove(sb, data, sizeof(*sb))`. -/
def Super.ofBlock (b : Block) : Super :=
  ⟨b.u32 0, b.u32 4, b.u32 8, b.u32 12, b.u32 16, b.u32 20, b.u32 24, b.u32 28⟩

def Super.words (sb : Super) : List UInt32 :=
  [sb.magic, sb.size, sb.nblocks, sb.ninodes, sb.nlog, sb.logstart, sb.inodestart, sb.bmapstart]

/-- `memmove(data, &sb, sizeof(sb))`, on a block of zeros. -/
def Super.toBlock (sb : Super) : Block := (Bytes.zero BSIZE).setU32s 0 sb.words

theorem Super.ofBlock_toBlock (sb : Super) : ofBlock sb.toBlock = sb := by
  have hlen : sb.words.length = 8 := rfl
  have hB : BSIZE = 1024 := rfl
  have h : ∀ i, (hi : i < 8) → sb.toBlock.u32 (4 * i) = sb.words[i] := fun i hi => by
    have := Bytes.u32_setU32s_get (b := Bytes.zero BSIZE) (i := i) (show 0 + 4 * sb.words.length ≤ _ by
      omega) (by omega)
    rwa [Nat.zero_add] at this
  unfold ofBlock
  congr 1
  · exact h 0 (by omega)
  · exact h 1 (by omega)
  · exact h 2 (by omega)
  · exact h 3 (by omega)
  · exact h 4 (by omega)
  · exact h 5 (by omega)
  · exact h 6 (by omega)
  · exact h 7 (by omega)

/-! ## Inodes -/

@[ext] structure Dinode where
  type : UInt16
  major : UInt16
  minor : UInt16
  nlink : UInt16
  size : UInt32
  addrs : Fin (NDIRECT + 1) → UInt32
deriving DecidableEq

/-- `memset(dip, 0, sizeof(*dip))`. -/
def Dinode.zero : Dinode := ⟨0, 0, 0, 0, 0, fun _ => 0⟩

/-- `((struct dinode*)data)[k]`. -/
def getDinode (b : Block) (k : Nat) : Dinode where
  type := b.u16 (64 * k)
  major := b.u16 (64 * k + 2)
  minor := b.u16 (64 * k + 4)
  nlink := b.u16 (64 * k + 6)
  size := b.u32 (64 * k + 8)
  addrs := fun i => b.u32 (64 * k + 12 + 4 * i)

/-- Store `((struct dinode*)data)[k]`. -/
def putDinode (b : Block) (k : Nat) (x : Dinode) : Block :=
  (((((b.setU16 (64 * k) x.type).setU16 (64 * k + 2) x.major).setU16 (64 * k + 4) x.minor).setU16
    (64 * k + 6) x.nlink).setU32 (64 * k + 8) x.size).setU32s (64 * k + 12) (List.ofFn x.addrs)

section
variable {b c : Block} {i j k : Nat} {x : Dinode}

theorem byte_putDinode_ne (h : i < 64 * k ∨ 64 * k + 64 ≤ i) :
    (putDinode b k x).byte i = b.byte i := by
  unfold putDinode
  rw [Bytes.byte_setU32s_ne (by rw [length_ofFn]; simp only [NDIRECT]; omega),
    Bytes.byte_setU32_ne (by omega), Bytes.byte_setU16_ne (by omega),
    Bytes.byte_setU16_ne (by omega), Bytes.byte_setU16_ne (by omega),
    Bytes.byte_setU16_ne (by omega)]

theorem getDinode_congr (h : ∀ i, 64 * k ≤ i → i < 64 * k + 64 → b.byte i = c.byte i) :
    getDinode b k = getDinode c k := by
  unfold getDinode
  congr 1
  · exact Bytes.u16_congr fun i h1 h2 => h i (by omega) (by omega)
  · exact Bytes.u16_congr fun i h1 h2 => h i (by omega) (by omega)
  · exact Bytes.u16_congr fun i h1 h2 => h i (by omega) (by omega)
  · exact Bytes.u16_congr fun i h1 h2 => h i (by omega) (by omega)
  · exact Bytes.u32_congr fun i h1 h2 => h i (by omega) (by omega)
  · funext a
    have ha : a.val < 13 := a.isLt
    exact Bytes.u32_congr fun i h1 h2 => h i (by omega) (by omega)

theorem getDinode_putDinode_ne (h : j ≠ k) : getDinode (putDinode b k x) j = getDinode b j :=
  getDinode_congr fun i _ _ => byte_putDinode_ne (by omega)

theorem getDinode_putDinode (hk : k < IPB) : getDinode (putDinode b k x) k = x := by
  have hk' : k < 16 := hk
  have hB : BSIZE = 1024 := rfl
  have hlen : (List.ofFn x.addrs).length = 13 := length_ofFn
  unfold getDinode putDinode
  ext1
  · dsimp only
    rw [Bytes.u16_setU32s_ne (by omega), Bytes.u16_setU32_ne (by omega),
      Bytes.u16_setU16_ne (by omega), Bytes.u16_setU16_ne (by omega), Bytes.u16_setU16_ne (by omega),
      Bytes.u16_setU16_self (by omega)]
  · dsimp only
    rw [Bytes.u16_setU32s_ne (by omega), Bytes.u16_setU32_ne (by omega),
      Bytes.u16_setU16_ne (by omega), Bytes.u16_setU16_ne (by omega),
      Bytes.u16_setU16_self (by omega)]
  · dsimp only
    rw [Bytes.u16_setU32s_ne (by omega), Bytes.u16_setU32_ne (by omega),
      Bytes.u16_setU16_ne (by omega), Bytes.u16_setU16_self (by omega)]
  · dsimp only
    rw [Bytes.u16_setU32s_ne (by omega), Bytes.u16_setU32_ne (by omega),
      Bytes.u16_setU16_self (by omega)]
  · dsimp only
    rw [Bytes.u32_setU32s_ne (by omega), Bytes.u32_setU32_self (by omega)]
  · funext a
    have ha : a.val < 13 := a.isLt
    dsimp only
    rw [Bytes.u32_setU32s_get (by omega) (by omega), List.getElem_ofFn]

@[simp] theorem getDinode_zero (k : Nat) : getDinode (Bytes.zero BSIZE) k = Dinode.zero := by
  simp [getDinode, Dinode.zero]

end

/-! ## Directory entries -/

/-- A file name, or the string in a buffer for one. -/
abbrev Name := List UInt8

/-- The character that separates path elements. -/
def SLASH : UInt8 := 47

/-- `"."`. -/
def dot : Name := [46]

/-- `".."`. -/
def dotdot : Name := [46, 46]

/-- `strncpy(dst, s, m)`: the string `s`, cut or filled up with NULs. -/
def strncpy (s : List UInt8) (m : Nat) : List UInt8 := s.take m ++ List.replicate (m - s.length) 0

/-- The string in a buffer: up to the first NUL. -/
def cstr (l : List UInt8) : List UInt8 := l.takeWhile (· != 0)

/-- A `struct dirent`; the name is the string in `name[DIRSIZ]`. -/
structure Dirent where
  inum : UInt16
  name : Name
deriving DecidableEq, Repr

/-- Its 16 bytes. -/
def Dirent.bytes (de : Dirent) : List UInt8 :=
  UInt8.ofNat de.inum.toNat :: UInt8.ofNat (de.inum.toNat / 256) :: strncpy de.name DIRSIZ

def Dirent.ofBytes (l : List UInt8) : Dirent where
  inum := UInt16.ofNat ((l.getD 0 0).toNat + 256 * (l.getD 1 0).toNat)
  name := cstr ((l.drop 2).take DIRSIZ)

section
variable {s : List UInt8} {m : Nat} {de : Dirent}

theorem length_strncpy : (strncpy s m).length = m := by
  rw [strncpy, length_append, length_take, length_replicate]
  omega

@[simp] theorem Dirent.length_bytes : de.bytes.length = 16 := by
  rw [bytes, length_cons, length_cons, length_strncpy]

theorem cstr_strncpy (h : (0 : UInt8) ∉ s) : cstr (strncpy s m) = s.take m := by
  have h' : (0 : UInt8) ∉ s.take m := fun hc => h (mem_of_mem_take hc)
  rw [cstr, strncpy, takeWhile_append_of_pos]
  · cases m - s.length with
    | zero => simp
    | succ k => simp [replicate_succ]
  · intro c hc
    have : c ≠ 0 := by rintro rfl; exact h' hc
    simpa using this

theorem Dirent.inum_ofBytes_bytes : (ofBytes de.bytes).inum = de.inum := by
  have hv : de.inum.toNat < 65536 := de.inum.toNat_lt
  apply UInt16.toNat_inj.mp
  simp only [ofBytes, bytes, getD_cons_zero, getD_cons_succ, UInt16.toNat_ofNat',
    UInt8.toNat_ofNat']
  omega

/-- A name of at most `DIRSIZ` bytes comes back as it was. -/
theorem Dirent.ofBytes_bytes (h : (0 : UInt8) ∉ de.name) (hl : de.name.length ≤ DIRSIZ) :
    ofBytes de.bytes = de := by
  have hn : (ofBytes de.bytes).name = de.name := by
    show cstr ((strncpy de.name DIRSIZ).take DIRSIZ) = de.name
    rw [take_of_length_le (le_of_eq length_strncpy), cstr_strncpy h, take_of_length_le hl]
  exact (congrArg₂ Dirent.mk inum_ofBytes_bytes hn :)

end

end Xv6.Fs
