/-
# `Xv6.Fs.Image` — a disk as inodes, a bitmap and blocks

The inodes and the bitmap are read through `IBLOCK` and `BBLOCK`; with a sane
superblock (`Super.Ok`) they and the data blocks lie apart, so that a store to
one does not show in the others.

The slots of an inode are its 13 addresses and, behind them, the entries of its
indirect block: `slot 12` is the indirect block itself, `slot (13 + j)` entry `j`
of it.  `refs` are the slots of all allocated inodes, the references to blocks
that the bitmap has to agree with.  The inodes are a parameter of `refs`: they
are those on disk, or the copies in memory that will be written there.
-/
import Xv6.Fs.Format
import Xv6.Lib.Slots

namespace Xv6.Fs

open Function

abbrev Disk := Nat → Block

/-! ## Layout -/

/-- Block containing inode `i`. -/
def Super.IBLOCK (sb : Super) (i : Nat) : Nat := i / IPB + sb.inodestart.toNat

/-- Block of the free map containing the bit for block `b`. -/
def Super.BBLOCK (sb : Super) (b : Nat) : Nat := b / BPB + sb.bmapstart.toNat

/-- Number of metadata blocks: all but the data blocks. -/
def Super.nmeta (sb : Super) : Nat := sb.size.toNat - sb.nblocks.toNat

/-- Inode blocks, bitmap and data come one after the other. -/
structure Super.Ok (sb : Super) : Prop where
  inodes : sb.inodestart.toNat * IPB + sb.ninodes.toNat ≤ sb.bmapstart.toNat * IPB
  bitmap : sb.bmapstart.toNat * BPB + sb.size.toNat ≤ sb.nmeta * BPB
  pos : 0 < sb.size.toNat

section
variable {sb : Super} {i b : Nat}

theorem Super.Ok.iblock_lt (h : sb.Ok) (hi : i < sb.ninodes.toNat) :
    sb.IBLOCK i < sb.bmapstart.toNat := by
  have := h.inodes
  simp only [IPB] at this
  simp only [IBLOCK, IPB]
  omega

theorem Super.Ok.bblock_lt (h : sb.Ok) (hb : b < sb.size.toNat) : sb.BBLOCK b < sb.nmeta := by
  have := h.bitmap
  simp only [BPB] at this
  simp only [BBLOCK, BPB]
  omega

theorem Super.le_bblock : sb.bmapstart.toNat ≤ sb.BBLOCK b := Nat.le_add_left ..

theorem Super.Ok.bmapstart_lt (h : sb.Ok) : sb.bmapstart.toNat < sb.nmeta :=
  Nat.lt_of_le_of_lt Super.le_bblock (h.bblock_lt h.pos)

end

/-! ## Inodes and bitmap -/

section
variable (sb : Super)

def dinode (d : Disk) (i : Nat) : Dinode := getDinode (d (sb.IBLOCK i)) (i % IPB)

def setDinode (d : Disk) (i : Nat) (x : Dinode) : Disk :=
  update d (sb.IBLOCK i) (putDinode (d (sb.IBLOCK i)) (i % IPB) x)

def used (d : Disk) (b : Nat) : Bool := (d (sb.BBLOCK b)).bit (b % BPB)

def setUsed (d : Disk) (b : Nat) : Disk :=
  update d (sb.BBLOCK b) ((d (sb.BBLOCK b)).setBit (b % BPB))

end

section
variable {sb : Super} {d : Disk} {i j b c : Nat} {x : Dinode} {v : Block}

@[simp] theorem dinode_setDinode_self : dinode sb (setDinode sb d i x) i = x := by
  rw [dinode, setDinode, update_self, getDinode_putDinode (Nat.mod_lt _ (by decide))]

theorem dinode_setDinode_ne (h : j ≠ i) : dinode sb (setDinode sb d i x) j = dinode sb d j := by
  unfold dinode setDinode
  by_cases hb : sb.IBLOCK j = sb.IBLOCK i
  · rw [hb, update_self, getDinode_putDinode_ne]
    simp only [Super.IBLOCK, IPB] at hb ⊢
    omega
  · rw [update_of_ne hb]

theorem dinode_setDinode (d : Disk) (i : Nat) (x : Dinode) :
    dinode sb (setDinode sb d i x) = update (dinode sb d) i x := by
  funext j
  by_cases h : j = i
  · subst h
    rw [dinode_setDinode_self, update_self]
  · rw [dinode_setDinode_ne h, update_of_ne h]

private theorem bit_of_block (hb : sb.BBLOCK c = sb.BBLOCK b) : c % BPB = b % BPB ↔ c = b := by
  simp only [Super.BBLOCK, BPB] at hb ⊢
  omega

private theorem bit_lt (b : Nat) : b % BPB < 8 * BSIZE := Nat.mod_lt _ (by decide)

theorem used_setUsed : used sb (setUsed sb d b) c = (decide (c = b) || used sb d c) := by
  unfold used setUsed
  by_cases hb : sb.BBLOCK c = sb.BBLOCK b
  · rw [hb, update_self, Bytes.bit_setBit (bit_lt b)]
    simp only [bit_of_block hb]
  · rw [update_of_ne hb, decide_eq_false (by rintro rfl; exact hb rfl), Bool.false_or]

/-- A store outside the inode blocks. -/
theorem dinode_update (h : sb.IBLOCK i ≠ b) : dinode sb (update d b v) i = dinode sb d i := by
  rw [dinode, update_of_ne h, dinode]

/-- A store outside the bitmap. -/
theorem used_update (h : sb.BBLOCK c ≠ b) : used sb (update d b v) c = used sb d c := by
  rw [used, update_of_ne h, used]

variable (hsb : sb.Ok)
include hsb

theorem used_update_data (hc : c < sb.size.toNat) (hb : sb.nmeta ≤ b) :
    used sb (update d b v) c = used sb d c := by
  have := hsb.bblock_lt hc
  exact used_update (by omega)

theorem used_setDinode (hi : i < sb.ninodes.toNat) :
    used sb (setDinode sb d i x) c = used sb d c := by
  have h₁ := hsb.iblock_lt hi
  have h₂ : sb.bmapstart.toNat ≤ sb.BBLOCK c := Super.le_bblock
  exact used_update (by omega)

theorem setDinode_data (hi : i < sb.ninodes.toNat) (hb : sb.nmeta ≤ b) :
    setDinode sb d i x b = d b := by
  have h₁ := hsb.iblock_lt hi
  have h₂ := hsb.bmapstart_lt
  exact update_of_ne (by omega) ..

theorem setUsed_data (hc : c < sb.size.toNat) (hb : sb.nmeta ≤ b) : setUsed sb d c b = d b := by
  have := hsb.bblock_lt hc
  exact update_of_ne (by omega) ..

end

/-! ## Slots -/

theorem toNat_ne_zero {v : UInt32} : v.toNat ≠ 0 ↔ v ≠ 0 := by
  rw [Ne, Ne, ← UInt32.toNat_inj]
  rfl

/-- The address of the indirect block. -/
abbrev Dinode.ind (x : Dinode) : UInt32 := x.addrs (Fin.last NDIRECT)

def Dinode.setAddr (x : Dinode) (k : Fin (NDIRECT + 1)) (v : UInt32) : Dinode :=
  { x with addrs := update x.addrs k v }

def Dinode.setSize (x : Dinode) (v : UInt32) : Dinode := { x with size := v }

theorem Dinode.ind_setAddr_last (x : Dinode) (v : UInt32) :
    (x.setAddr (Fin.last NDIRECT) v).ind = v := by
  simp only [Dinode.ind, Dinode.setAddr, update_self]

theorem Dinode.ind_setAddr_ne (x : Dinode) {k : Fin (NDIRECT + 1)} (v : UInt32)
    (h : k ≠ Fin.last NDIRECT) : (x.setAddr k v).ind = x.ind := by
  simp only [Dinode.ind, Dinode.setAddr, update_of_ne h.symm]

/-- Slot `k` of an inode. -/
def slot (d : Disk) (x : Dinode) (k : Nat) : UInt32 :=
  if h : k < NDIRECT + 1 then x.addrs ⟨k, h⟩
  else if x.ind = 0 ∨ MAXFILE < k then 0
  else (d x.ind.toNat).u32 (4 * (k - (NDIRECT + 1)))

/-- The slot that holds block `n` of a file. -/
def slotOf (n : Nat) : Nat := if n < NDIRECT then n else n + 1

/-- The address of block `n` of a file. -/
def blockAt (d : Disk) (x : Dinode) (n : Nat) : UInt32 := slot d x (slotOf n)

/-- Byte `m` of a file. -/
def byteAt (d : Disk) (x : Dinode) (m : Nat) : UInt8 :=
  (d (blockAt d x (m / BSIZE)).toNat).byte (m % BSIZE)

/-- Entry `k` of a directory. -/
def entryAt (d : Disk) (x : Dinode) (k : Nat) : Dirent :=
  Dirent.ofBytes ((List.range 16).map fun j => byteAt d x (16 * k + j))

/-- The slots of the allocated ones of the first `N` inodes. -/
def refs (N : Nat) (ino : Nat → Dinode) (d : Disk) (a : Nat × Nat) : Nat :=
  if a.1 < N ∧ (ino a.1).type ≠ 0 then (slot d (ino a.1) a.2).toNat else 0

section
variable {N : Nat} {ino ino' : Nat → Dinode} {d d' : Disk} {x : Dinode} {i j k n : Nat} {v : UInt32}

theorem slotOf_ne_ind : slotOf n ≠ NDIRECT := by
  unfold slotOf
  split <;> omega

theorem slotOf_inj {m : Nat} (h : slotOf m = slotOf n) : m = n := by
  unfold slotOf at h
  split at h <;> split at h <;> omega

theorem slot_addr (h : k < NDIRECT + 1) : slot d x k = x.addrs ⟨k, h⟩ := dif_pos h

theorem slot_ind : slot d x NDIRECT = x.ind := rfl

theorem slot_entry (h : x.ind ≠ 0) (hj : j < NINDIRECT) :
    slot d x (NDIRECT + 1 + j) = (d x.ind.toNat).u32 (4 * j) := by
  have hk : ¬ (NDIRECT + 1 + j < NDIRECT + 1) := by omega
  have hc : ¬ (x.ind = 0 ∨ MAXFILE < NDIRECT + 1 + j) := by
    rintro (h' | h')
    · exact h h'
    · simp only [MAXFILE] at h'
      omega
  rw [slot, dif_neg hk, if_neg hc, Nat.add_sub_cancel_left]

theorem slot_of_no_ind (h : x.ind = 0) (hk : NDIRECT ≤ k) : slot d x k = 0 := by
  unfold slot
  split
  · next hlt =>
      have : (⟨k, hlt⟩ : Fin (NDIRECT + 1)) = Fin.last NDIRECT :=
        Fin.ext (by simp only [Fin.val_last]; omega)
      rwa [this]
  · rw [if_pos (.inl h)]

theorem slot_big (hk : MAXFILE < k) : slot d x k = 0 := by
  have : ¬ (k < NDIRECT + 1) := by simp only [MAXFILE] at hk; omega
  rw [slot, dif_neg this, if_pos (.inr hk)]

/-- A slot depends on the addresses, and on the indirect block. -/
theorem slot_congr {y : Dinode} (ha : x.addrs = y.addrs)
    (hd : x.ind ≠ 0 → d x.ind.toNat = d' x.ind.toNat) (k : Nat) : slot d x k = slot d' y k := by
  have hi : x.ind = y.ind := congrFun ha _
  unfold slot
  split
  · rw [ha]
  · rw [← hi]
    split
    · rfl
    · next h => rw [hd fun h0 => h (.inl h0)]

theorem refs_eq (hi : i < N) (ht : (ino i).type ≠ 0) : refs N ino d (i, k) = (slot d (ino i) k).toNat :=
  if_pos ⟨hi, ht⟩

theorem refs_ne_zero (h : refs N ino d (i, k) ≠ 0) : i < N ∧ (ino i).type ≠ 0 := by
  unfold refs at h
  split at h
  · assumption
  · exact absurd rfl h

/-- The references depend on types and addresses, and on the indirect blocks. -/
theorem refs_congr
    (hino : ∀ i < N, (ino i).type ≠ 0 ↔ (ino' i).type ≠ 0)
    (haddr : ∀ i < N, (ino i).type ≠ 0 → (ino i).addrs = (ino' i).addrs)
    (hd : ∀ i < N, (ino i).type ≠ 0 → (ino i).ind ≠ 0 → d (ino i).ind.toNat = d' (ino i).ind.toNat) :
    refs N ino d = refs N ino' d' := by
  funext ⟨i, k⟩
  unfold refs
  by_cases h : i < N ∧ (ino i).type ≠ 0
  · rw [if_pos h, if_pos ⟨h.1, (hino i h.1).mp h.2⟩]
    exact congrArg UInt32.toNat (slot_congr (haddr i h.1 h.2) (hd i h.1 h.2) k)
  · rw [if_neg h, if_neg fun h' => h ⟨h'.1, (hino i h'.1).mpr h'.2⟩]

/-- A block that is nobody's indirect block is written. -/
theorem refs_update_disk {b : Nat} {blk : Block} (h : ∀ i, refs N ino d (i, NDIRECT) ≠ b) :
    refs N ino (update d b blk) = refs N ino d := by
  refine refs_congr (fun _ _ => Iff.rfl) (fun _ _ _ => rfl) fun i hi ht hind => ?_
  have := h i
  rw [refs_eq hi ht, slot_ind] at this
  exact update_of_ne this ..

/-- A store of an address.  A new indirect block is a block of zeros. -/
theorem refs_setAddr {k : Fin (NDIRECT + 1)} (hi : i < N) (ht : (ino i).type ≠ 0)
    (hk : k = Fin.last NDIRECT → (ino i).ind = 0 ∧ d v.toNat = Bytes.zero BSIZE) :
    refs N (update ino i ((ino i).setAddr k v)) d
      = update (refs N ino d) (i, k.val) v.toNat := by
  funext ⟨j, m⟩
  by_cases hj : j = i
  · subst hj
    have ht' : (update ino j ((ino j).setAddr k v) j).type ≠ 0 := by
      rwa [update_self]
    rw [refs_eq hi ht', update_self]
    by_cases hm : m = k.val
    · subst hm
      rw [update_self, slot_addr k.isLt]
      exact congrArg UInt32.toNat (update_self ..)
    · have hne : (j, m) ≠ (j, k.val) := fun h => hm (Prod.mk.inj h).2
      rw [update_of_ne hne, refs_eq hi ht]
      refine congrArg UInt32.toNat ?_
      by_cases hlt : m < NDIRECT + 1
      · rw [slot_addr hlt, slot_addr hlt]
        exact update_of_ne (fun h => hm (congrArg Fin.val h)) ..
      · -- an entry of the indirect block
        by_cases hkl : k = Fin.last NDIRECT
        · obtain ⟨h0, hz⟩ := hk hkl
          have hm' : NDIRECT ≤ m := by omega
          rw [slot_of_no_ind h0 hm']
          subst hkl
          unfold slot
          rw [dif_neg hlt]
          split
          · rfl
          · rw [Dinode.ind_setAddr_last, hz, Bytes.u32_zero]
        · unfold slot
          rw [dif_neg hlt, dif_neg hlt, Dinode.ind_setAddr_ne _ _ hkl]
  · have hne : (j, m) ≠ (i, k.val) := fun h => hj (Prod.mk.inj h).1
    rw [update_of_ne hne]
    simp only [refs, update_of_ne hj]

/-- A store of an entry of the indirect block. -/
theorem refs_setEntry (hi : i < N) (ht : (ino i).type ≠ 0) (hind : (ino i).ind ≠ 0)
    (hj : j < NINDIRECT)
    (huniq : ∀ i', refs N ino d (i', NDIRECT) = (ino i).ind.toNat → i' = i) :
    refs N ino (update d (ino i).ind.toNat ((d (ino i).ind.toNat).setU32 (4 * j) v))
      = update (refs N ino d) (i, NDIRECT + 1 + j) v.toNat := by
  have hB : BSIZE = 1024 := rfl
  have hj' : j < 256 := hj
  funext ⟨i', m⟩
  by_cases hi' : i' = i
  · subst hi'
    rw [refs_eq hi ht]
    by_cases hm : m = NDIRECT + 1 + j
    · subst hm
      rw [update_self, slot_entry hind hj, update_self,
        Bytes.u32_setU32_self (by omega)]
    · have hne : (i', m) ≠ (i', NDIRECT + 1 + j) := fun h => hm (Prod.mk.inj h).2
      rw [update_of_ne hne, refs_eq hi ht]
      by_cases hlt : m < NDIRECT + 1
      · rw [slot_addr hlt, slot_addr hlt]
      · unfold slot
        split
        · rfl
        · have h12 : NDIRECT = 12 := rfl
          rw [update_self, Bytes.u32_setU32_ne (by omega)]
  · have hne : (i', m) ≠ (i, NDIRECT + 1 + j) := fun h => hi' (Prod.mk.inj h).1
    rw [update_of_ne hne]
    unfold refs
    split
    · next h =>
        refine congrArg UInt32.toNat (slot_congr rfl (fun _ => ?_) m)
        refine update_of_ne (fun he => hi' (huniq i' ?_)) ..
        rw [refs_eq h.1 h.2, slot_ind, he]
    · rfl

end

end Xv6.Fs
