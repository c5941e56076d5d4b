/-
# `Xv6.Fs.MkfsSpec` — what the appends of `mkfs` build

`Built s ino c ns`: with the inodes `ino`, inode `i` holds the bytes `c i`, in the
first `ns i` of its slots.  Blocks are given out in the order of the slots, the
indirect block just before its first entry, so that one number says which slots of an
inode are filled; and `freeblock` is the number of all of them.  The inodes are a
parameter since `iappend` works on a copy of the one it extends.
-/
import Mathlib.Algebra.BigOperators.Group.Finset.Piecewise
import Mathlib.Algebra.Order.BigOperators.Group.Finset
import Mathlib.Data.List.GetD
import Xv6.Fs.Mkfs
import Xv6.Lib.Succeeds

namespace Xv6.Fs.Mkfs

open Machine Function List

/-- `x` holds the bytes `l` in its first `ns` slots, and zeros behind them. -/
structure Holds (d : Disk) (x : Dinode) (l : List UInt8) (ns : Nat) : Prop where
  size : x.size.toNat = l.length
  slots : ∀ k, slot d x k ≠ 0 ↔ k < ns
  room : ∀ m < l.length, slotOf (m / BSIZE) < ns
  bytes : ∀ m, slotOf (m / BSIZE) < ns → byteAt d x m = l.getD m 0

/-- The type of the inodes `mkfs` allocates. -/
def kind (i : Nat) : UInt16 := if i = ROOTINO then T_DIR else T_FILE

structure Built (s : Mk) (ino : Nat → Dinode) (c : Nat → List UInt8) (ns : Nat → Nat) : Prop where
  exact : Exact (· < nmeta) FSSIZE (refs NINODES ino s.disk) (· < s.freeblock)
  zero : ∀ b, s.freeblock ≤ b → s.disk b = Bytes.zero BSIZE
  inodes : 0 < s.freeinode ∧ s.freeinode ≤ NINODES
  free : ∀ i < NINODES, i = 0 ∨ s.freeinode ≤ i → ino i = Dinode.zero
  attr : ∀ i, 0 < i → i < s.freeinode → (ino i).type = kind i ∧ (ino i).nlink = 1
  holds : ∀ i, 0 < i → i < s.freeinode → Holds s.disk (ino i) (c i) (ns i)
  dead : ∀ i, i = 0 ∨ s.freeinode ≤ i → c i = [] ∧ ns i = 0
  count : s.freeblock = nmeta + ∑ i ∈ Finset.range NINODES, ns i

/-- An inode that `mkfs` has allocated. -/
def Mk.Live (s : Mk) (i : Nat) : Prop := 0 < i ∧ i < s.freeinode

/-- The slots that `len` bytes take. -/
def slotsFor (len : Nat) : Nat := if len = 0 then 0 else slotOf ((len - 1) / BSIZE) + 1

theorem sum_update {S : Finset Nat} (f : Nat → Nat) {k : Nat} (hk : k ∈ S) (v : Nat) :
    (∑ x ∈ S, update f k v x) + f k = (∑ x ∈ S, f x) + v := by
  rw [Finset.sum_update_of_mem hk, ← Finset.add_sum_erase S f hk, Finset.sdiff_singleton_eq_erase]
  omega

section
variable {d d' : Disk} {x y : Dinode} {l q : List UInt8} {ns k b : Nat}

/-- The slots that are in use, and the indirect block, are as they were. -/
theorem Holds.slot_frame (h : Holds d x l ns) (hy : y.addrs = x.addrs)
    (hd : NDIRECT < ns → d' x.ind.toNat = d x.ind.toNat) (k : Nat) : slot d' y k = slot d x k := by
  have hi : y.ind = x.ind := congrFun hy _
  refine slot_congr hy (fun h0 => ?_) k
  rw [hi] at h0 ⊢
  exact hd ((h.slots NDIRECT).mp h0)

theorem Holds.frame (h : Holds d x l ns) (hy : y.addrs = x.addrs) (hsz : y.size = x.size)
    (hd : ∀ k < ns, d' (slot d x k).toNat = d (slot d x k).toNat) : Holds d' y l ns := by
  have hs : ∀ k, slot d' y k = slot d x k := h.slot_frame hy fun h0 => hd NDIRECT h0
  refine ⟨by rw [hsz]; exact h.size, fun k => by rw [hs]; exact h.slots k, h.room, fun m hm => ?_⟩
  rw [byteAt, blockAt, hs, hd _ hm]
  exact h.bytes m hm

/-- A block of zeros in the next slot. -/
theorem Holds.grow (h : Holds d x l ns) (h0 : b ≠ 0) (hsz : y.size = x.size)
    (hs : ∀ k, (slot d' y k).toNat = if k = ns then b else (slot d x k).toNat)
    (hd : ∀ n, slotOf n < ns → d' (slot d x (slotOf n)).toNat = d (slot d x (slotOf n)).toNat)
    (hz : d' b = Bytes.zero BSIZE) : Holds d' y l (ns + 1) where
  size := by rw [hsz]; exact h.size
  slots k := by
    rw [← toNat_ne_zero, hs k]
    by_cases hk : k = ns
    · rw [if_pos hk]
      exact ⟨fun _ => by omega, fun _ => h0⟩
    · rw [if_neg hk, toNat_ne_zero, h.slots k]
      omega
  room m hm := Nat.lt_succ_of_lt (h.room m hm)
  bytes m hm := by
    rw [byteAt, blockAt, hs]
    by_cases hk : slotOf (m / BSIZE) = ns
    · have hm' : l.length ≤ m := by
        by_contra hlt
        have := h.room m (by omega)
        omega
      rw [if_pos hk, hz, Bytes.byte_zero, getD_eq_default _ _ hm']
    · have hlt : slotOf (m / BSIZE) < ns := by omega
      rw [if_neg hk, hd _ hlt]
      exact h.bytes m hlt

/-- Bytes written behind the end, into the block the end is in. -/
theorem Holds.append (h : Holds d x l ns) (hslot : slotOf (l.length / BSIZE) < ns)
    (hq : l.length % BSIZE + q.length ≤ BSIZE) (hsize : l.length + q.length < 2 ^ 32)
    (hb : (blockAt d x (l.length / BSIZE)).toNat = b)
    (hne : ∀ k < ns, k ≠ slotOf (l.length / BSIZE) → (slot d x k).toNat ≠ b) :
    Holds (update d b ((d b).patch (l.length % BSIZE) q))
      (x.setSize (UInt32.ofNat (l.length + q.length))) (l ++ q) ns := by
  have hB : BSIZE = 1024 := rfl
  have hs : ∀ k, slot (update d b ((d b).patch (l.length % BSIZE) q))
      (x.setSize (UInt32.ofNat (l.length + q.length))) k = slot d x k :=
    h.slot_frame rfl fun h0 => update_of_ne (hne NDIRECT h0 slotOf_ne_ind.symm) ..
  refine ⟨?_, fun k => by rw [hs]; exact h.slots k, fun m hm => ?_, fun m hm => ?_⟩
  · rw [length_append]
    exact UInt32.toNat_ofNat_of_lt' hsize
  · rw [length_append] at hm
    by_cases hml : m < l.length
    · exact h.room m hml
    · have : m / BSIZE = l.length / BSIZE := by rw [hB] at hq ⊢; omega
      rwa [this]
  · have hold := h.bytes m hm
    rw [byteAt, blockAt] at hold ⊢
    rw [hs]
    by_cases hmb : m / BSIZE = l.length / BSIZE
    · -- the block written to: before, inside and behind `q`
      have hx : (slot d x (slotOf (m / BSIZE))).toNat = b := by rwa [hmb]
      rw [hx] at hold ⊢
      rw [update_self]
      by_cases hm1 : m < l.length
      · rw [Bytes.byte_patch_ne (by rw [hB] at hmb ⊢; omega), hold, getD_append _ _ _ _ hm1]
      · rw [getD_append_right _ _ _ _ (by omega)]
        by_cases hm2 : m - l.length < q.length
        · have he : m % BSIZE = l.length % BSIZE + (m - l.length) := by rw [hB] at hmb ⊢; omega
          rw [he, Bytes.byte_patch_get hq hm2, getD_eq_getElem _ _ hm2]
        · rw [Bytes.byte_patch_ne (by rw [hB] at hmb ⊢; omega), hold,
            getD_eq_default _ _ (by omega), getD_eq_default _ _ (by omega)]
    · have hx : (slot d x (slotOf (m / BSIZE))).toNat ≠ b := hne _ hm fun he => hmb (slotOf_inj he)
      rw [update_of_ne hx, hold]
      by_cases hm1 : m < l.length
      · rw [getD_append _ _ _ _ hm1]
      · rw [getD_append_right _ _ _ _ (by omega), getD_eq_default _ _ (by omega),
          getD_eq_default _ _ (by rw [hB] at hq hmb; omega)]

end

section
variable {s t : Mk} {ino ino' : Nat → Dinode} {c : Nat → List UInt8} {ns : Nat → Nat}
  {i j k n b : Nat} {l p q : List UInt8} {d d' : Disk} {x : Dinode}

theorem Built.lt_of_live (h : Built s ino c ns) (hi : s.Live i) : i < NINODES :=
  Nat.lt_of_lt_of_le hi.2 h.inodes.2

theorem kind_ne_zero (i : Nat) : kind i ≠ 0 := by
  rw [kind]
  split <;> decide

section
variable (h : Built s ino c ns)
include h

theorem Built.type_ne (hi : s.Live i) : (ino i).type ≠ 0 := by
  rw [(h.attr i hi.1 hi.2).1]
  exact kind_ne_zero i

theorem Built.live (hi : i < NINODES) : (ino i).type ≠ 0 ↔ s.Live i := by
  refine ⟨fun ht => ?_, h.type_ne⟩
  by_contra hl
  refine ht ?_
  rw [h.free i hi (by unfold Mk.Live at hl; omega)]
  rfl

theorem Built.refs_eq (hi : s.Live i) (k : Nat) :
    refs NINODES ino s.disk (i, k) = (slot s.disk (ino i) k).toNat :=
  Fs.refs_eq (h.lt_of_live hi) (h.type_ne hi)

theorem Built.nmeta_le : nmeta ≤ s.freeblock := by
  have := h.count
  omega

/-- Every slot in use holds a data block below `freeblock`. -/
theorem Built.slot_range (hi : s.Live i) (hk : k < ns i) :
    nmeta ≤ (slot s.disk (ino i) k).toNat ∧ (slot s.disk (ino i) k).toNat < s.freeblock
      ∧ (slot s.disk (ino i) k).toNat < FSSIZE := by
  have h0 : refs NINODES ino s.disk (i, k) ≠ 0 := by
    rw [h.refs_eq hi, toNat_ne_zero]
    exact ((h.holds i hi.1 hi.2).slots k).mpr hk
  obtain ⟨h1, h2⟩ := h.exact.range _ h0
  have h3 := h.exact.used_of_slot h0
  rw [h.refs_eq hi] at h1 h2 h3
  exact ⟨Nat.le_of_not_lt h1, h3, h2⟩

/-- Two slots in use hold different blocks. -/
theorem Built.slot_inj (hi : s.Live i) (hj : s.Live j) {m : Nat}
    (hk : k < ns i) (he : (slot s.disk (ino i) k).toNat = (slot s.disk (ino j) m).toNat) :
    i = j ∧ k = m := by
  have h0 : refs NINODES ino s.disk (i, k) ≠ 0 := by
    rw [h.refs_eq hi, toNat_ne_zero]
    exact ((h.holds i hi.1 hi.2).slots k).mpr hk
  exact Prod.mk.inj (h.exact.inj (i, k) (j, m) (by rw [h.refs_eq hi, h.refs_eq hj, he]) h0)

theorem Built.live_of_ref (hr : refs NINODES ino s.disk (i, k) ≠ 0) : s.Live i ∧ k < ns i := by
  obtain ⟨hi, ht⟩ := refs_ne_zero hr
  have hl : s.Live i := (h.live hi).mp ht
  rw [h.refs_eq hl, toNat_ne_zero] at hr
  exact ⟨hl, ((h.holds i hl.1 hl.2).slots k).mp hr⟩

/-- A slot in use of one inode is no indirect block, unless it is the one of its own. -/
theorem Built.not_ind (hi : s.Live i) (hk : k < ns i) (hk' : k ≠ NDIRECT)
    (j : Nat) : refs NINODES ino s.disk (j, NDIRECT) ≠ (slot s.disk (ino i) k).toNat := fun he => by
  have h0 : refs NINODES ino s.disk (j, NDIRECT) ≠ 0 := by
    rw [he]
    exact Nat.ne_of_gt (Nat.lt_of_lt_of_le (by decide) (h.slot_range hi hk).1)
  obtain ⟨hj, -⟩ := h.live_of_ref h0
  rw [h.refs_eq hj] at he
  exact hk' (h.slot_inj hi hj hk he.symm).2

/-- An indirect block lies below `freeblock`. -/
theorem Built.ind_lt (hb : s.freeblock ≤ b) (j : Nat) :
    refs NINODES ino s.disk (j, NDIRECT) ≠ b := fun he => by
  have h0 : refs NINODES ino s.disk (j, NDIRECT) ≠ 0 := by
    rw [he]
    exact Nat.ne_of_gt (Nat.lt_of_lt_of_le (Nat.lt_of_lt_of_le (by decide) h.nmeta_le) hb)
  obtain ⟨hj, hk⟩ := h.live_of_ref h0
  have := (h.slot_range hj hk).2.1
  rw [h.refs_eq hj] at he
  omega

end

theorem Mk.Live.ne_dead (hi : s.Live i) (hj : j = 0 ∨ s.freeinode ≤ j) : j ≠ i := by
  have := hi.1
  have := hi.2
  omega

/-- Only the first `NINODES` inodes and the data blocks count. -/
theorem Built.congr (h : Built s ino c ns) (hino : ∀ i < NINODES, ino' i = ino i)
    (hd : ∀ b, nmeta ≤ b → t.disk b = s.disk b) (hf : t.freeinode = s.freeinode)
    (hb : t.freeblock = s.freeblock) : Built t ino' c ns := by
  have hrefs : refs NINODES ino' t.disk = refs NINODES ino s.disk := by
    refine refs_congr (fun i hi => by rw [hino i hi]) (fun i hi _ => by rw [hino i hi])
      fun i hi ht hind => ?_
    rw [hino i hi] at ht hind ⊢
    have hl : s.Live i := (h.live hi).mp ht
    exact hd _ (h.slot_range hl (((h.holds i hl.1 hl.2).slots NDIRECT).mp hind)).1
  constructor
  · rw [hrefs, hb]; exact h.exact
  · intro b hb'
    rw [hb] at hb'
    rw [hd b (Nat.le_trans h.nmeta_le hb'), h.zero b hb']
  · rw [hf]; exact h.inodes
  · intro i hi
    rw [hino i hi, hf]
    exact h.free i hi
  · intro i h0 hi
    rw [hf] at hi
    rw [hino i (h.lt_of_live ⟨h0, hi⟩)]
    exact h.attr i h0 hi
  · intro i h0 hi
    rw [hf] at hi
    have hl : s.Live i := ⟨h0, hi⟩
    rw [hino i (h.lt_of_live hl)]
    exact (h.holds i h0 hi).frame rfl rfl fun k hk => hd _ (h.slot_range hl hk).1
  · rw [hf]; exact h.dead
  · rw [hb]; exact h.count

/-! ## A new inode -/

theorem slot_fresh (d : Disk) (v : UInt16) (k : Nat) : slot d (freshInode v) k = 0 := by
  by_cases hk : k < NDIRECT + 1
  · rw [slot_addr hk]; rfl
  · exact slot_of_no_ind rfl (by omega)

section
variable (h : Built s ino c ns)
include h

theorem Built.fresh (hlt : s.freeinode < NINODES) : Built { s with freeinode := s.freeinode + 1 }
      (update ino s.freeinode (freshInode (kind s.freeinode))) c ns := by
  have hfree : ¬ (ino s.freeinode).type ≠ 0 := fun ht =>
    absurd ((h.live hlt).mp ht).2 (Nat.lt_irrefl _)
  obtain ⟨hc, hns⟩ := h.dead s.freeinode (.inr (Nat.le_refl _))
  have hrefs : refs NINODES (update ino s.freeinode (freshInode (kind s.freeinode))) s.disk
      = refs NINODES ino s.disk := by
    funext ⟨j, k⟩
    simp only [refs]
    by_cases hj : j = s.freeinode
    · subst hj
      have hl : ¬ (s.freeinode < NINODES ∧ (ino s.freeinode).type ≠ 0) := fun hh => hfree hh.2
      rw [update_self, slot_fresh, if_neg hl]
      split <;> rfl
    · rw [update_of_ne hj]
  constructor
  · rw [hrefs]; exact h.exact
  · exact h.zero
  · exact ⟨Nat.succ_pos _, hlt⟩
  · intro j hj hd
    have hd' : j = 0 ∨ s.freeinode + 1 ≤ j := hd
    have := h.inodes.1
    rw [update_of_ne (by omega), h.free j hj (by omega)]
  · intro j h0 hj
    by_cases hji : j = s.freeinode
    · subst hji
      rw [update_self]
      exact ⟨rfl, rfl⟩
    · rw [update_of_ne hji]
      have : j < s.freeinode + 1 := hj
      exact h.attr j h0 (by omega)
  · intro j h0 hj
    by_cases hji : j = s.freeinode
    · subst hji
      rw [update_self, hc, hns]
      exact ⟨rfl, fun k =>
        ⟨fun hk => absurd (slot_fresh ..) hk, fun hk => absurd hk (Nat.not_lt_zero k)⟩,
        fun m hm => absurd hm (Nat.not_lt_zero m), fun m hm => absurd hm (Nat.not_lt_zero _)⟩
    · rw [update_of_ne hji]
      have : j < s.freeinode + 1 := hj
      exact h.holds j h0 (by omega)
  · intro j hj
    have hj' : j = 0 ∨ s.freeinode + 1 ≤ j := hj
    exact h.dead j (by omega)
  · exact h.count

/-! ## Giving out a block -/

theorem Built.alloc (hi : s.Live i) (hroom : s.freeblock < FSSIZE)
    (hne : ∀ j, j ≠ i → ino' j = ino j)
    (hsame : (ino' i).type = (ino i).type ∧ (ino' i).nlink = (ino i).nlink ∧
      (ino' i).size = (ino i).size)
    (hd : ∀ b, (∀ j, refs NINODES ino s.disk (j, NDIRECT) ≠ b) → d' b = s.disk b)
    (hrefs : refs NINODES ino' d' = update (refs NINODES ino s.disk) (i, ns i) s.freeblock) :
    Built { s with disk := d', freeblock := s.freeblock + 1 } ino' c
      (update ns i (ns i + 1)) := by
  have hfb0 : s.freeblock ≠ 0 := Nat.ne_of_gt (Nat.lt_of_lt_of_le (by decide) h.nmeta_le)
  have hino : ∀ j, (ino' j).type = (ino j).type ∧ (ino' j).nlink = (ino j).nlink ∧
      (ino' j).size = (ino j).size := fun j => by
    by_cases hj : j = i
    · subst hj; exact hsame
    · rw [hne j hj]; exact ⟨rfl, rfl, rfl⟩
  have hempty : refs NINODES ino s.disk (i, ns i) = 0 := by
    by_contra h0
    exact absurd (h.live_of_ref h0).2 (Nat.lt_irrefl _)
  have hzero : ∀ b, s.freeblock ≤ b → d' b = Bytes.zero BSIZE := fun b hb => by
    rw [hd b (h.ind_lt hb), h.zero b hb]
  have hslot : ∀ j, s.Live j → ∀ k, (slot d' (ino' j) k).toNat
      = update (refs NINODES ino s.disk) (i, ns i) s.freeblock (j, k) := fun j hj k => by
    have hr := congrFun hrefs (j, k)
    rwa [Fs.refs_eq (h.lt_of_live hj) (by rw [(hino j).1]; exact h.type_ne hj)] at hr
  have hdata : ∀ j, s.Live j → ∀ n, slotOf n < ns j →
      d' (slot s.disk (ino j) (slotOf n)).toNat = s.disk (slot s.disk (ino j) (slotOf n)).toNat :=
    fun j hj n hn => hd _ (h.not_ind hj hn slotOf_ne_ind)
  constructor
  · rw [hrefs]
    refine (h.exact.alloc hroom hfb0 (Nat.lt_irrefl _) hempty).congr fun b _ => ?_
    show b < s.freeblock + 1 ↔ b < s.freeblock ∨ b = s.freeblock
    omega
  · exact fun b hb => hzero b (Nat.le_of_succ_le hb)
  · exact h.inodes
  · exact fun j hj hd => by rw [hne j (hi.ne_dead hd)]; exact h.free j hj hd
  · exact fun j h0 hj => by rw [(hino j).1, (hino j).2.1]; exact h.attr j h0 hj
  · intro j h0 hj
    have hl : s.Live j := ⟨h0, hj⟩
    by_cases hji : j = i
    · subst hji
      rw [update_self]
      refine (h.holds j h0 hj).grow hfb0 (hino j).2.2 (fun k => ?_) (hdata j hl)
        (hzero _ (Nat.le_refl _))
      rw [hslot j hl]
      by_cases hk : k = ns j
      · rw [if_pos hk, hk, update_self]
      · rw [if_neg hk, update_of_ne (fun hp => hk (Prod.mk.inj hp).2), h.refs_eq hl]
    · rw [update_of_ne hji]
      have hs : ∀ k, slot d' (ino' j) k = slot s.disk (ino j) k := fun k => by
        have := hslot j hl k
        rw [update_of_ne (fun hp => hji (Prod.mk.inj hp).1), h.refs_eq hl] at this
        exact UInt32.toNat_inj.mp this
      have hH := h.holds j h0 hj
      refine ⟨by rw [(hino j).2.2]; exact hH.size, fun k => by rw [hs]; exact hH.slots k, hH.room,
        fun m hm => ?_⟩
      show (d' (slot d' (ino' j) (slotOf (m / BSIZE))).toNat).byte (m % BSIZE) = _
      rw [hs, hdata j hl _ hm]
      exact hH.bytes m hm
  · intro j hj
    rw [update_of_ne (hi.ne_dead hj)]
    exact h.dead j hj
  · have hmem : i ∈ Finset.range NINODES := Finset.mem_range.mpr (h.lt_of_live hi)
    have := sum_update ns hmem (ns i + 1)
    have := h.count
    show s.freeblock + 1 = _
    omega

/-! ## Writing behind the end -/

theorem Built.write (hi : s.Live i)
    (hslot : slotOf ((c i).length / BSIZE) < ns i) (hq : (c i).length % BSIZE + q.length ≤ BSIZE)
    (hsize : (c i).length + q.length < 2 ^ 32)
    (hb : (blockAt s.disk (ino i) ((c i).length / BSIZE)).toNat = b) :
    Built { s with disk := update s.disk b ((s.disk b).patch ((c i).length % BSIZE) q) }
      (update ino i ((ino i).setSize (UInt32.ofNat ((c i).length + q.length))))
      (update c i (c i ++ q)) ns := by
  have hlt : b < s.freeblock := hb ▸ (h.slot_range hi hslot).2.1
  have hind : ∀ j, refs NINODES ino s.disk (j, NDIRECT) ≠ b := fun j =>
    hb ▸ h.not_ind hi hslot slotOf_ne_ind j
  have hino : ∀ j, (update ino i ((ino i).setSize
      (UInt32.ofNat ((c i).length + q.length))) j).setSize 0 = (ino j).setSize 0 := fun j => by
    by_cases hj : j = i
    · subst hj; rw [update_self]; rfl
    · rw [update_of_ne hj]
  have htype := fun j => congrArg Dinode.type (hino j)
  have hnlink := fun j => congrArg Dinode.nlink (hino j)
  have haddrs := fun j => congrArg Dinode.addrs (hino j)
  constructor
  · refine Eq.mp (congrArg (fun f => Exact _ _ f _) ?_) h.exact
    rw [← refs_update_disk hind]
    exact refs_congr (fun j _ => (htype j) ▸ Iff.rfl) (fun j _ _ => (haddrs j).symm) fun _ _ _ _ => rfl
  · intro a ha
    have ha' : s.freeblock ≤ a := ha
    exact (update_of_ne (by omega) ..).trans (h.zero a ha')
  · exact h.inodes
  · exact fun j hj hd => by rw [update_of_ne (hi.ne_dead hd)]; exact h.free j hj hd
  · exact fun j h0 hj => ⟨(htype j).trans (h.attr j h0 hj).1, (hnlink j).trans (h.attr j h0 hj).2⟩
  · intro j h0 hj
    have hl : s.Live j := ⟨h0, hj⟩
    by_cases hji : j = i
    · subst hji
      rw [update_self, update_self]
      refine (h.holds j h0 hj).append hslot hq hsize hb fun k hk hne he => hne ?_
      exact (h.slot_inj hl hl hk (he.trans hb.symm)).2
    · rw [update_of_ne hji, update_of_ne hji]
      refine (h.holds j h0 hj).frame rfl rfl fun k hk => update_of_ne (fun he => hji ?_) ..
      exact (h.slot_inj hl hi hk (he.trans hb.symm)).1
  · intro j hj
    rw [update_of_ne (hi.ne_dead hj)]
    exact h.dead j hj
  · exact h.count

end

/-! ## The functions -/

theorem rsect_spec {Q : Block → Mk → Prop} (hb : b < FSSIZE) (hQ : Q (s.disk b) s) :
    Succeeds (rsect b) s Q := by
  refine Succeeds.read ?_
  rw [if_pos hb]
  exact Succeeds.pure hQ

/-- What the functions called inside `iappend` leave alone. -/
structure Beside (s t : Mk) : Prop where
  inode : t.freeinode = s.freeinode
  low : ∀ b < nmeta, t.disk b = s.disk b

theorem Beside.refl (s : Mk) : Beside s s := ⟨rfl, fun _ _ => rfl⟩

theorem Beside.trans {u : Mk} (h : Beside s t) (h' : Beside t u) : Beside s u :=
  ⟨h'.inode.trans h.inode, fun b hb => (h'.low b hb).trans (h.low b hb)⟩

variable {din : Dinode} {z : UInt32} {fbn : Nat}

theorem Built.slot_ne (h : Built s ino c ns) (hi : s.Live i) :
    slot s.disk (ino i) k ≠ 0 ↔ k < ns i := (h.holds i hi.1 hi.2).slots k

theorem toNat_ofNat_freeblock (h : s.freeblock < FSSIZE) :
    (UInt32.ofNat s.freeblock).toNat = s.freeblock :=
  UInt32.toNat_ofNat_of_lt' (Nat.lt_of_lt_of_le h (by decide))

section
variable (h : Built s ino c ns)
include h

theorem fillAddr_spec (hi : s.Live i) (hdin : ino i = din.setSize z)
    {k : Fin (NDIRECT + 1)} (hk : k.val ≤ ns i) (hroom : ns i = k.val → s.freeblock < FSSIZE) :
    Succeeds (fillAddr din k) s fun din' t => Built t (update ino i (din'.setSize z)) c
        (update ns i (max (ns i) (k.val + 1))) ∧ Beside s t ∧ t.disk = s.disk ∧
      t.freeblock = s.freeblock + (k.val + 1 - ns i) := by
  have hslot : din.addrs k ≠ 0 ↔ k.val < ns i := by
    rw [← h.slot_ne hi, slot_addr k.isLt, hdin]
    rfl
  unfold fillAddr
  by_cases h0 : din.addrs k = 0
  · have hns : ns i = k.val := by
      have : ¬ k.val < ns i := fun hlt => hslot.mpr hlt h0
      omega
    have hlt := hroom hns
    rw [if_pos h0]
    refine ⟨_, _, rfl, ?_, ⟨rfl, fun _ _ => rfl⟩, rfl, by show s.freeblock + 1 = _; omega⟩
    rw [show max (ns i) (k.val + 1) = ns i + 1 by omega]
    suffices hA : Built { s with freeblock := s.freeblock + 1 }
        (update ino i ((ino i).setAddr k (UInt32.ofNat s.freeblock))) c
        (update ns i (ns i + 1)) by rwa [hdin] at hA
    refine h.alloc hi hlt (fun j hj => update_of_ne hj ..) ?_ (fun _ _ => rfl) ?_
    · rw [update_self]; exact ⟨rfl, rfl, rfl⟩
    · rw [refs_setAddr (h.lt_of_live hi) (h.type_ne hi), toNat_ofNat_freeblock hlt, hns]
      intro hk'
      subst hk'
      refine ⟨?_, by rw [toNat_ofNat_freeblock hlt, h.zero _ (Nat.le_refl _)]⟩
      rwa [hdin]
  · have hns := hslot.mp h0
    rw [if_neg h0]
    refine Succeeds.pure ⟨?_, Beside.refl s, rfl, by omega⟩
    rwa [show max (ns i) (k.val + 1) = ns i by omega, update_eq_self, ← hdin, update_eq_self]

theorem fillEntry_spec (hi : s.Live i) (hj : j < NINDIRECT)
    (hns : ns i = NDIRECT + 1 + j ∨ ns i = NDIRECT + 1 + j + 1)
    (hroom : ns i = NDIRECT + 1 + j → s.freeblock < FSSIZE) :
    Succeeds (fillEntry (ino i).ind.toNat j) s fun x t =>
      Built t ino c (update ns i (NDIRECT + 1 + j + 1)) ∧ Beside s t ∧
        blockAt t.disk (ino i) (NDIRECT + j) = x := by
  have hind : NDIRECT < ns i := by omega
  have hne : (ino i).ind ≠ 0 := (h.slot_ne hi).mpr hind
  have hrange := h.slot_range hi hind
  rw [slot_ind] at hrange
  have hat : ∀ d, blockAt d (ino i) (NDIRECT + j) = (d (ino i).ind.toNat).u32 (4 * j) := fun d => by
    rw [blockAt, show slotOf (NDIRECT + j) = NDIRECT + 1 + j by
      rw [slotOf, if_neg (by omega)]; omega, slot_entry hne hj]
  have hslot : (s.disk (ino i).ind.toNat).u32 (4 * j) ≠ 0 ↔ NDIRECT + 1 + j < ns i := by
    rw [← h.slot_ne hi, slot_entry hne hj]
  refine Succeeds.bind (rsect_spec hrange.2.2 ?_)
  by_cases h0 : (s.disk (ino i).ind.toNat).u32 (4 * j) = 0
  · have hns' : ns i = NDIRECT + 1 + j := by
      have : ¬ NDIRECT + 1 + j < ns i := fun hlt => hslot.mpr hlt h0
      omega
    have hlt := hroom hns'
    rw [if_pos h0]
    refine ⟨_, _, rfl, ?_, ⟨rfl, fun b hb => update_of_ne (by omega) ..⟩, ?_⟩
    · rw [← hns']
      refine h.alloc hi hlt (fun _ _ => rfl) ⟨rfl, rfl, rfl⟩ (fun b hb => ?_) ?_
      · refine update_of_ne (fun he => hb i ?_) ..
        rw [h.refs_eq hi, slot_ind, he]
      · rw [refs_setEntry (h.lt_of_live hi) (h.type_ne hi) hne hj, toNat_ofNat_freeblock hlt, hns']
        intro i' he
        obtain ⟨hi', hk'⟩ := h.live_of_ref (by rw [he]; exact toNat_ne_zero.mpr hne)
        rw [h.refs_eq hi'] at he
        exact (h.slot_inj hi' hi (m := NDIRECT) hk' he).1
    · rw [hat]
      exact congrArg (fun blk => Bytes.u32 blk (4 * j)) (update_self ..)
  · have hns' := hslot.mp h0
    rw [if_neg h0]
    refine Succeeds.pure ⟨?_, Beside.refl s, hat _⟩
    rwa [show NDIRECT + 1 + j + 1 = ns i by omega, update_eq_self]

theorem mapBlock_spec (hi : s.Live i) (hdin : ino i = din.setSize z) (hfbn : fbn < MAXFILE)
    (hns : ns i = slotOf fbn + 1 ∨ ns i = slotOf fbn ∨ fbn = NDIRECT ∧ ns i = NDIRECT)
    (hroom : s.freeblock + (slotOf fbn + 1 - ns i) ≤ FSSIZE) :
    Succeeds (mapBlock din fbn) s fun r t =>
      Built t (update ino i (r.1.setSize z)) c (update ns i (slotOf fbn + 1)) ∧
        Beside s t ∧ blockAt t.disk (r.1.setSize z) fbn = r.2 := by
  have hmax : MAXFILE = NDIRECT + NINDIRECT := rfl
  unfold mapBlock
  split
  · next hlt =>
      have hso : slotOf fbn = fbn := if_pos hlt
      rw [hso] at hns hroom ⊢
      refine (fillAddr_spec h hi hdin (by dsimp only; omega)
        (by dsimp only; omega)).seq fun din' t ht => Succeeds.pure ?_
      obtain ⟨hB, hbes, -, -⟩ := ht
      rw [show max (ns i) (fbn + 1) = fbn + 1 by omega] at hB
      refine ⟨hB, hbes, ?_⟩
      rw [blockAt, hso, slot_addr (by omega)]
      rfl
  · next hge =>
      have hso : slotOf fbn = fbn + 1 := if_neg hge
      rw [hso] at hns hroom ⊢
      refine (fillAddr_spec h hi hdin (by rw [Fin.val_last]; omega)
        (by rw [Fin.val_last]; omega)).seq fun din' t ht => ?_
      obtain ⟨hB, hbes, -, hfb⟩ := ht
      rw [Fin.val_last] at hB hfb
      have hi' : t.Live i := by rwa [Mk.Live, hbes.inode]
      have hind : (update ino i (din'.setSize z) i).ind = din'.ind := by
        rw [update_self]; rfl
      have hE := fillEntry_spec (j := fbn - NDIRECT) hB hi' (by omega)
        (by rw [update_self]; omega) (by rw [update_self]; omega)
      rw [hind, update_self, update_idem] at hE
      refine hE.seq fun x u hu => Succeeds.pure ?_
      obtain ⟨hB', hbes', hx⟩ := hu
      rw [show NDIRECT + 1 + (fbn - NDIRECT) + 1 = fbn + 1 + 1 by omega] at hB'
      rw [show NDIRECT + (fbn - NDIRECT) = fbn by omega] at hx
      exact ⟨hB', hbes.trans hbes', hx⟩

end

/-! ## Appending -/

theorem slotOf_mono {m n : Nat} (h : m ≤ n) : slotOf m ≤ slotOf n := by
  unfold slotOf
  split <;> split <;> omega

theorem slotsFor_mono {m n : Nat} (h : m ≤ n) : slotsFor m ≤ slotsFor n := by
  unfold slotsFor
  split
  · omega
  · rw [if_neg (by omega)]
    exact Nat.succ_le_succ (slotOf_mono (Nat.div_le_div_right (by omega)))

/-- Behind a file of `len` bytes, block `len / BSIZE` is the last one in use, or the
next, or the first that needs the indirect block. -/
theorem slotsFor_cases (len : Nat) : slotsFor len = slotOf (len / BSIZE) + 1 ∨
    slotsFor len = slotOf (len / BSIZE) ∨ len / BSIZE = NDIRECT ∧ slotsFor len = NDIRECT := by
  by_cases h0 : len = 0
  · subst h0
    exact .inr (.inl rfl)
  · unfold slotsFor
    rw [if_neg h0]
    simp only [BSIZE]
    by_cases hm : (len - 1) / 1024 = len / 1024
    · exact .inl (by rw [hm])
    · have hd : len / 1024 = (len - 1) / 1024 + 1 := by omega
      rw [hd]
      unfold slotOf
      split
      · by_cases h' : (len - 1) / 1024 + 1 < NDIRECT
        · rw [if_pos h']; omega
        · rw [if_neg h']; omega
      · rw [if_neg (by omega)]; omega

theorem slotsFor_le (len : Nat) : slotsFor len ≤ slotOf (len / BSIZE) + 1 := by
  rcases slotsFor_cases len with h | h | ⟨h, h'⟩
  · omega
  · omega
  · rw [h, h', slotOf, if_neg (by omega)]; omega

/-- The blocks in use when inode `i` has `v` slots. -/
theorem Built.room (h : Built s ino c ns) (hi : s.Live i) {v : Nat} (hv : ns i ≤ v) :
    s.freeblock + (v - ns i) = nmeta + ∑ x ∈ Finset.range NINODES, update ns i v x := by
  have := sum_update ns (Finset.mem_range.mpr (h.lt_of_live hi)) v
  have := h.count
  omega

theorem chunk_spec {off m : Nat} (h : 0 < m) : 0 < chunk off m ∧ chunk off m ≤ m ∧
    off % BSIZE + chunk off m ≤ BSIZE ∧ (off + chunk off m - 1) / BSIZE = off / BSIZE := by
  simp only [chunk, BSIZE]
  omega

theorem iappendLoop_spec (h : Built s ino c ns) (hi : s.Live i) (len : Nat)
    (hlen : (c i).length = len) (hdin : ino i = din.setSize (UInt32.ofNat len))
    (hns : ns i = slotsFor len) (hmax : len + p.length ≤ MAXFILE * BSIZE)
    (hroom : nmeta + ∑ x ∈ Finset.range NINODES,
      update ns i (slotsFor (len + p.length)) x ≤ FSSIZE) :
    Succeeds (iappendLoop din len p) s fun r t =>
      r.2 = len + p.length ∧ Beside s t ∧
      Built t (update ino i (r.1.setSize (UInt32.ofNat r.2)))
        (update c i (c i ++ p)) (update ns i (slotsFor r.2)) := by
  -- by induction on what is left to append: one block is written in each round
  induction hp : p.length using Nat.strong_induction_on generalizing s ino c ns din len p with
  | _ N ih =>
  subst hp
  unfold iappendLoop
  split
  · next hnil =>
      subst hnil
      refine Succeeds.pure ⟨rfl, Beside.refl s, ?_⟩
      rwa [← hdin, update_eq_self, append_nil, update_eq_self, ← hns, update_eq_self]
  · next hne =>
      have hpos : 0 < p.length := length_pos_iff.mpr hne
      obtain ⟨hc0, hcle, hcB, hcdiv⟩ := @chunk_spec len _ hpos
      have hfbn : len / BSIZE < MAXFILE := by simp only [BSIZE] at hmax ⊢; omega
      have hle : ns i ≤ slotOf (len / BSIZE) + 1 := hns ▸ slotsFor_le len
      have hnext : slotsFor (len + chunk len p.length) = slotOf (len / BSIZE) + 1 := by
        rw [slotsFor, if_neg (by omega), hcdiv]
      have hroom' : s.freeblock + (slotOf (len / BSIZE) + 1 - ns i) ≤ FSSIZE := by
        have hmono : slotOf (len / BSIZE) + 1 ≤ slotsFor (len + p.length) :=
          hnext ▸ slotsFor_mono (by omega)
        have := h.room hi (v := slotsFor (len + p.length)) (by omega)
        omega
      have hq : (p.take (chunk len p.length)).length = chunk len p.length := by
        rw [length_take]; omega
      refine Succeeds.bind ?_
      rw [assert, if_pos hfbn]
      refine Succeeds.pure ?_
      refine (mapBlock_spec h hi hdin hfbn (hns ▸ slotsFor_cases len) hroom').seq
        fun ⟨din', x⟩ t ht => ?_
      obtain ⟨hB, hbes, hx⟩ := ht
      have hi' : t.Live i := by rwa [Mk.Live, hbes.inode]
      have hslot : slotOf (len / BSIZE) < update ns i (slotOf (len / BSIZE) + 1) i := by
        rw [update_self]; exact Nat.lt_succ_self _
      have hxr := hB.slot_range hi' hslot
      rw [update_self, show slot t.disk (din'.setSize (UInt32.ofNat len))
        (slotOf (len / BSIZE)) = x from hx] at hxr
      refine Succeeds.bind (rsect_spec hxr.2.2 ?_)
      have hW := hB.write (q := p.take (chunk len p.length)) (b := x.toNat) hi'
        (by rwa [hlen]) (by rwa [hlen, hq])
        (by rw [hlen, hq]; simp only [MAXFILE, NDIRECT, NINDIRECT, BSIZE] at hmax; omega)
        (by rw [hlen, update_self]; exact congrArg UInt32.toNat hx)
      rw [hlen, hq, update_self, update_idem] at hW
      have hoff : len - len / BSIZE * BSIZE = len % BSIZE := by simp only [BSIZE]; omega
      rw [hoff]
      have hL := ih (p.drop (chunk len p.length)).length
        (by rw [length_drop]; omega) hW hi' (len + chunk len p.length)
        (by rw [update_self, length_append, hlen, hq])
        (show _ = din'.setSize _ from update_self ..) (by rw [update_self, hnext])
        (by rw [length_drop]; omega)
        (by rw [update_idem, length_drop,
              show len + chunk len p.length + (p.length - chunk len p.length) = len + p.length by omega]
            exact hroom)
        rfl
      refine hL.mono fun r u hu => ?_
      obtain ⟨hr, hbes', hB'⟩ := hu
      rw [length_drop] at hr
      refine ⟨by omega, hbes.trans ⟨hbes'.inode, fun b hb => ?_⟩, ?_⟩
      · rw [hbes'.low b hb]
        exact update_of_ne (by omega) ..
      · rw [update_idem, update_idem, update_idem, update_self,
          append_assoc, take_append_drop] at hB'
        exact hB'

/-! ## The whole image -/

theorem sb_ok : sb.Ok := ⟨by decide, by decide, by decide⟩

theorem iblock_lt (hi : i < NINODES) : 1 < sb.IBLOCK i ∧ sb.IBLOCK i < nmeta := by
  have hs : sb.inodestart.toNat = 32 := by decide
  have hn : nmeta = 46 := by decide
  have hi' : i < 200 := hi
  simp only [Super.IBLOCK, IPB, hs, hn]
  omega

/-- Inodes do not lie in the first two blocks. -/
theorem setDinode_low (hi : i < NINODES) (hb : b ≤ 1) : setDinode sb d i x b = d b :=
  update_of_ne (Nat.ne_of_lt (Nat.lt_of_le_of_lt hb (iblock_lt hi).1)) ..

/-- The image holds the files `c`, its inodes are on disk. -/
structure Img (s : Mk) (c : Nat → List UInt8) : Prop where
  built : Built s (dinode sb s.disk) c fun i => slotsFor (c i).length
  boot : s.disk 0 = Bytes.zero BSIZE
  super : s.disk 1 = sb.toBlock

/-- The files fit. -/
def Room (c : Nat → List UInt8) : Prop :=
  nmeta + ∑ i ∈ Finset.range NINODES, slotsFor (c i).length ≤ FSSIZE

theorem slots_update : (fun j => slotsFor (update c i l j).length)
    = update (fun j => slotsFor (c j).length) i (slotsFor l.length) := by
  funext j
  by_cases hj : j = i
  · subst hj; rw [update_self, update_self]
  · rw [update_of_ne hj, update_of_ne hj]

theorem rinode_spec {Q : Dinode → Mk → Prop} (hi : i < NINODES) (hQ : Q (dinode sb s.disk i) s) :
    Succeeds (rinode i) s Q :=
  Succeeds.bind (rsect_spec (Nat.lt_trans (iblock_lt hi).2 (by decide)) (Succeeds.pure hQ))

theorem winode_spec {Q : Unit → Mk → Prop} (hi : i < NINODES)
    (hQ : Q () { s with disk := setDinode sb s.disk i x }) : Succeeds (winode i x) s Q :=
  Succeeds.bind (rsect_spec (Nat.lt_trans (iblock_lt hi).2 (by decide)) (Succeeds.update hQ))

theorem iappend_spec (h : Img s c) (hi : s.Live i)
    (hmax : (c i).length + p.length ≤ MAXFILE * BSIZE)
    (hroom : Room (update c i (c i ++ p))) :
    Succeeds (iappend i p) s fun _ t =>
      Img t (update c i (c i ++ p)) ∧ t.freeinode = s.freeinode := by
  have hlt := h.built.lt_of_live hi
  have hsize := (h.built.holds i hi.1 hi.2).size
  rw [Room, slots_update, length_append] at hroom
  refine Succeeds.bind (rinode_spec hlt ?_)
  rw [hsize]
  refine (iappendLoop_spec h.built hi _ rfl ?_ rfl hmax hroom).seq fun r t ht => winode_spec hlt ?_
  · rw [← hsize, UInt32.ofNat_toNat]; rfl
  obtain ⟨hr, hbes, hB⟩ := ht
  refine ⟨⟨?_, ?_, ?_⟩, hbes.inode⟩
  · rw [slots_update, length_append, ← hr]
    refine hB.congr (fun j hj => ?_) (fun b hb => setDinode_data sb_ok hlt hb) rfl rfl
    rw [dinode_setDinode]
    by_cases hji : j = i
    · subst hji; rw [update_self, update_self]
    · rw [update_of_ne hji, update_of_ne hji, dinode, dinode, hbes.low _ (iblock_lt hj).2]
  · dsimp only
    rw [setDinode_low hlt (by decide), hbes.low 0 (by decide), h.boot]
  · dsimp only
    rw [setDinode_low hlt (by decide), hbes.low 1 (by decide), h.super]

theorem ialloc_spec (h : Img s c) (hlt : s.freeinode < NINODES) {v : UInt16}
    (hk : kind s.freeinode = v) :
    Succeeds (ialloc v) s fun i t => i = s.freeinode ∧ Img t c ∧ t.freeinode = s.freeinode + 1 := by
  refine Succeeds.read (Succeeds.write ?_)
  refine Succeeds.seq (winode_spec hlt ?_)
    fun _ t ht => Succeeds.pure ⟨rfl, ht⟩
  refine ⟨⟨?_, ?_, ?_⟩, rfl⟩
  · refine (h.built.fresh hlt).congr (fun j _ => ?_) (fun b hb => setDinode_data sb_ok hlt hb) rfl rfl
    rw [dinode_setDinode, hk]
  · dsimp only
    rw [setDinode_low hlt (by decide), h.boot]
  · dsimp only
    rw [setDinode_low hlt (by decide), h.super]

end

end Xv6.Fs.Mkfs
