/-
# `Xv6.Fs.Contents` — an inode is an array of bytes

What the kernel knows about an inode is its copy in the table where that is valid, and
else the inode on disk (`Sys.inode`); its contents are the bytes below its size.
`readi` and `writei` are reading and overwriting in that array, which a write may
extend at the end.

A state is a file system without holes (`NoHoles`) when the bitmap is exact and no
inode lacks a block below its size.  Without the first, `balloc` could give out a
block that is in use, and a write would show in two inodes.  A write that logs more
blocks than a transaction may have panics.
-/
import Xv6.Fs.Limit
import Xv6.Fs.Readback
import Xv6.Fs.Write

namespace Xv6.Fs

open Machine Function List Option

variable {s t : Sys} {src : List UInt8}

/-! ## Arrays -/

/-- `l` with the bytes from `off` on overwritten by `src`. -/
def splice (l : List UInt8) (off : Nat) (src : List UInt8) : List UInt8 :=
  l.take off ++ src ++ l.drop (off + src.length)

section
variable {l src : List UInt8} {off : Nat}

theorem getElem?_splice (h : off ≤ l.length) (m : Nat) :
    (splice l off src)[m]? = if off ≤ m ∧ m < off + src.length then src[m - off]? else l[m]? := by
  have htake : (l.take off).length = off := by rw [length_take, Nat.min_eq_left h]
  rw [splice, append_assoc]
  by_cases hlow : m < off
  · rw [List.getElem?_append_left (by omega), if_neg (by omega), List.getElem?_take_of_lt hlow]
  · rw [List.getElem?_append_right (by omega), htake]
    by_cases hmid : m < off + src.length
    · rw [List.getElem?_append_left (by omega), if_pos (by omega)]
    · rw [List.getElem?_append_right (by omega), if_neg (by omega), List.getElem?_drop]
      congr 1
      omega

end

/-! ## Contents -/

/-- Inode `i` as the kernel has it: its copy in the table, where that is valid. -/
def Sys.inode (sb : Super) (s : Sys) (i : Nat) : Dinode :=
  match s.cached i with
  | some ip => if (s.itable ip).valid then (s.itable ip).din else dinode sb s.disk i
  | none => dinode sb s.disk i

def Sys.contents (sb : Super) (s : Sys) (i : Nat) : List UInt8 :=
  bytesAt s.disk (s.inode sb i) 0 (s.inode sb i).size.toNat

/-- A file system without holes. -/
structure NoHoles (sb : Super) (s : Sys) : Prop where
  layout : sb.Ok
  table : ∀ ip jp, 0 < (s.itable ip).ref → 0 < (s.itable jp).ref →
    (s.itable ip).inum = (s.itable jp).inum → ip = jp
  exact : Exact (· < sb.nmeta) sb.size.toNat (refs sb.ninodes.toNat (s.inode sb) s.disk) fun b =>
    used sb s.disk b = true
  full : ∀ i < sb.ninodes.toNat, (s.inode sb i).type ≠ 0 → ∀ b, b * BSIZE < (s.inode sb i).size.toNat →
    blockAt s.disk (s.inode sb i) b ≠ 0

/-- What the callers of `readi` and `writei` have after `ilock`. -/
structure Held (sb : Super) (s : Sys) (ip : Ptr) (i : Nat) : Prop where
  ref : 0 < (s.itable ip).ref
  inum : (s.itable ip).inum = i
  valid : (s.itable ip).valid = true
  lt : i < sb.ninodes.toNat
  type : (s.itable ip).din.type ≠ 0

section
variable {sb : Super} {s : Sys} {ip : Ptr} {i j : Nat} {x : Dinode} {d d' : Disk} {n : Nat}
  {m k : Nat}

@[simp] theorem length_contents : (s.contents sb i).length = (s.inode sb i).size.toNat := by
  rw [Sys.contents, length_bytesAt]

theorem NoHoles.cached (h : NoHoles sb s) (href : 0 < (s.itable ip).ref)
    (hinum : (s.itable ip).inum = i) : s.cached i = some ip := by
  cases hc : s.cached i with
  | none => exact absurd hinum (Sys.cached_none hc ip href)
  | some jp =>
    obtain ⟨hr, hi⟩ := Sys.cached_some hc
    rw [h.table jp ip hr href (hi.trans hinum.symm)]

theorem Held.cached (h : NoHoles sb s) (hip : Held sb s ip i) : s.cached i = some ip :=
  h.cached hip.ref hip.inum

theorem Held.inode (h : NoHoles sb s) (hip : Held sb s ip i) : s.inode sb i = (s.itable ip).din := by
  rw [Sys.inode, hip.cached h]
  exact if_pos hip.valid

/-- Blocks beyond `MAXFILE` do not exist. -/
theorem NoHoles.size_le (h : NoHoles sb s) (hi : i < sb.ninodes.toNat) (ht : (s.inode sb i).type ≠ 0) :
    (s.inode sb i).size.toNat ≤ MAXFILE * BSIZE := by
  by_contra hgt
  refine h.full i hi ht MAXFILE (by omega) (slot_big ?_)
  decide

theorem byteAt_congr (hind : x.ind ≠ 0 → d x.ind.toNat = d' x.ind.toNat)
    (hblk : d (blockAt d x (m / BSIZE)).toNat = d' (blockAt d x (m / BSIZE)).toNat) :
    byteAt d x m = byteAt d' x m := by
  have hslot : blockAt d x (m / BSIZE) = blockAt d' x (m / BSIZE) := slot_congr rfl hind _
  rw [byteAt, byteAt, hblk, hslot]

/-! ## The state after a write -/

theorem itable_edit_same (q : Part) : ∀ jp, ((s.edit ip q).itable jp).ref = (s.itable jp).ref ∧
    ((s.edit ip q).itable jp).inum = (s.itable jp).inum :=
  (forall_update_iff s.itable fun jp x =>
    x.ref = (s.itable jp).ref ∧ x.inum = (s.itable jp).inum).mpr ⟨⟨rfl, rfl⟩, fun _ _ => ⟨rfl, rfl⟩⟩

theorem cached_congr (h : ∀ jp, (t.itable jp).ref = (s.itable jp).ref ∧
    (t.itable jp).inum = (s.itable jp).inum) (j : Nat) : t.cached j = s.cached j := by
  unfold Sys.cached
  congr 1
  funext jp
  rw [(h jp).1, (h jp).2]

/-- The loop of `writei` led to `q`, and then the size and the inode on disk are set. -/
def Sys.written (sb : Super) (s : Sys) (ip : Ptr) (i : Nat) (q : Part) (off : Nat) : Sys :=
  s.edit ip ((q.extend off).iupdate sb i)

variable {q : Part} {off : Nat}

theorem disk_written : (s.written sb ip i q off).disk = setDinode sb q.disk i (q.extend off).din := by
  rw [Sys.written, Sys.disk_edit, disk_iupdate, disk_extend]

theorem cached_written : (s.written sb ip i q off).cached j = s.cached j :=
  cached_congr (itable_edit_same _) j

variable (h : NoHoles sb s) (hip : Held sb s ip i)
include h hip

theorem over_inode : edited (s.inode sb) i (s.part ip).din = s.inode sb := by
  rw [edited, update_eq_self_iff, Sys.part, hip.inode h]

theorem owns_part : Owns sb (s.inode sb) i (s.part ip) := by
  refine ⟨h.layout, hip.lt, hip.type, ?_⟩
  rw [Part.refs, over_inode h hip]
  exact h.exact

theorem inode_written_self : (s.written sb ip i q off).inode sb i = (q.extend off).din := by
  rw [Sys.inode, cached_written, hip.cached h]
  simp only [Sys.written, Sys.itable_edit_self, hip.valid, if_true, din_iupdate]

theorem full_written (hfull : Full sb q.disk) : Full sb (s.written sb ip i q off).disk := by
  intro b hb
  rw [disk_written, used_setDinode h.layout hip.lt]
  exact hfull b hb

theorem size_written (hmax : off + k < 2 ^ 32)
    (hW : Written src n off 0 (off + k) k (s.part ip) q) :
    ((s.written sb ip i q (off + k)).inode sb i).size.toNat
      = max (s.inode sb i).size.toNat (off + k) := by
  rw [inode_written_self h hip, size_extend hmax, hW.size, hip.inode h]
  rfl

/-- Below the new size, there is a block that the write covers or that was there. -/
theorem block_written (hW : Written src n off 0 (off + k) k (s.part ip) q) {b : Nat}
    (hb : b * BSIZE < max (s.inode sb i).size.toNat (off + k)) : blockAt q.disk q.din b ≠ 0 := by
  rcases lt_max_iff.mp hb with hb | hb
  · have ht : (s.inode sb i).type ≠ 0 := by rw [hip.inode h]; exact hip.type
    have := h.full i hip.lt ht b hb
    rw [hip.inode h] at this
    rwa [hW.keep b this]
  · exact hW.cover b hb

variable (hE : Edit sb (s.inode sb) i (s.part ip) q)
include hE

theorem inode_written_other (hj : j < sb.ninodes.toNat) (hji : j ≠ i) :
    (s.written sb ip i q off).inode sb j = s.inode sb j := by
  have hd : dinode sb (s.written sb ip i q off).disk j = dinode sb s.disk j := by
    rw [disk_written, dinode_setDinode_ne hji, dinode, hE.apart.low _ (h.layout.iblock_lt hj)]
    rfl
  rw [Sys.inode, Sys.inode, cached_written, hd]
  cases hc : s.cached j with
  | none => rfl
  | some jp =>
    have hjp : jp ≠ ip := by
      rintro rfl
      exact hji ((Sys.cached_some hc).2.symm.trans hip.inum)
    simp only [Sys.written, Sys.itable_edit, update_of_ne hjp]

/-- The references are those of the inode being changed. -/
theorem refs_written : refs sb.ninodes.toNat ((s.written sb ip i q off).inode sb)
    (s.written sb ip i q off).disk = q.refs sb (s.inode sb) i := by
  have hino : ∀ j < sb.ninodes.toNat, ((s.written sb ip i q off).inode sb j).type
        = (edited (s.inode sb) i q.din j).type ∧
      ((s.written sb ip i q off).inode sb j).addrs = (edited (s.inode sb) i q.din j).addrs := by
    intro j hj
    by_cases hji : j = i
    · subst hji
      rw [inode_written_self h hip, edited, update_self, type_extend, addrs_extend]
      exact ⟨rfl, rfl⟩
    · rw [inode_written_other h hip hE hj hji, over_ne hji]
      exact ⟨rfl, rfl⟩
  refine (refs_congr (fun j hj => ?_) (fun j hj _ => (hino j hj).2.symm) fun j hj ht hind => ?_).symm
  · rw [(hino j hj).1]
  · have hr : q.refs sb (s.inode sb) i (j, NDIRECT) = (edited (s.inode sb) i q.din j).ind.toNat :=
      refs_eq hj ht
    have hm := (hE.owns.exact.range (j, NDIRECT) (by rw [hr]; exact toNat_ne_zero.mpr hind)).1
    rw [hr] at hm
    rw [disk_written, setDinode_data h.layout hip.lt (Nat.le_of_not_lt hm)]

/-- A block of another inode. -/
theorem disk_written_other (hj : j < sb.ninodes.toNat) (ht : (s.inode sb j).type ≠ 0) (hji : j ≠ i)
    (hk : slot s.disk (s.inode sb j) k ≠ 0) :
    (s.written sb ip i q off).disk (slot s.disk (s.inode sb j) k).toNat
      = s.disk (slot s.disk (s.inode sb j) k).toNat := by
  have hr : (s.part ip).refs sb (s.inode sb) i (j, k) = (slot s.disk (s.inode sb j) k).toNat := by
    rw [Part.refs, over_inode h hip]
    exact refs_eq hj ht
  have h0 : (s.part ip).refs sb (s.inode sb) i (j, k) ≠ 0 := by
    rw [hr]
    exact toNat_ne_zero.mpr hk
  have hkeep := hE.apart.others j k hji h0
  have hm : sb.nmeta ≤ (slot s.disk (s.inode sb j) k).toNat := by
    have := h.exact.range (j, k) (by rw [refs_eq hj ht]; exact toNat_ne_zero.mpr hk)
    rw [refs_eq hj ht] at this
    exact Nat.le_of_not_lt this.1
  rw [hr] at hkeep
  rw [disk_written, setDinode_data h.layout hip.lt hm, hkeep]
  rfl

theorem contents_written_other (hj : j < sb.ninodes.toNat) (ht : (s.inode sb j).type ≠ 0)
    (hji : j ≠ i) : (s.written sb ip i q off).contents sb j = s.contents sb j := by
  unfold Sys.contents bytesAt
  rw [inode_written_other h hip hE hj hji]
  refine map_congr_left fun m hm => ?_
  have hB : BSIZE = 1024 := rfl
  have hlt : (0 + m) / BSIZE * BSIZE < (s.inode sb j).size.toNat := by
    have := mem_range.mp hm
    rw [hB]
    omega
  have hsame : ∀ k, slot s.disk (s.inode sb j) k ≠ 0 → s.disk (slot s.disk (s.inode sb j) k).toNat
      = (s.written sb ip i q off).disk (slot s.disk (s.inode sb j) k).toNat := fun k hk =>
    (disk_written_other h hip hE hj ht hji hk).symm
  exact (byteAt_congr (hsame NDIRECT) (hsame _ (h.full j hj ht _ hlt))).symm

/-- The blocks of the inode itself are where the loop put them. -/
theorem disk_written_self (hk : slot q.disk q.din k ≠ 0) :
    (s.written sb ip i q off).disk (slot q.disk q.din k).toNat
      = q.disk (slot q.disk q.din k).toNat := by
  rw [disk_written, setDinode_data h.layout hip.lt (hE.owns.data hk).1]

theorem blockAt_written_self (b : Nat) : blockAt (s.written sb ip i q off).disk
    ((s.written sb ip i q off).inode sb i) b = blockAt q.disk q.din b := by
  rw [inode_written_self h hip]
  refine (slot_congr (addrs_extend off).symm (fun hind => ?_) _).symm
  exact (disk_written_self h hip hE (k := NDIRECT) hind).symm

theorem byteAt_written_self (hb : blockAt q.disk q.din (m / BSIZE) ≠ 0) :
    byteAt (s.written sb ip i q off).disk ((s.written sb ip i q off).inode sb i) m
      = content q.disk q.din m := by
  rw [byteAt, blockAt_written_self h hip hE, content, if_neg hb, byteAt]
  exact congrArg (Bytes.byte · _) (disk_written_self h hip hE hb)

variable {src : List UInt8} {k : Nat} (hmax : off + k < 2 ^ 32)
  (hW : Written src n off 0 (off + k) k (s.part ip) q)
include hmax hW

theorem noHoles_written : NoHoles sb (s.written sb ip i q (off + k)) where
  layout := h.layout
  table jp kp := by
    have hsame : ∀ jp, ((s.written sb ip i q (off + k)).itable jp).ref = (s.itable jp).ref ∧
        ((s.written sb ip i q (off + k)).itable jp).inum = (s.itable jp).inum := itable_edit_same _
    rw [(hsame jp).1, (hsame kp).1, (hsame jp).2, (hsame kp).2]
    exact h.table jp kp
  exact := by
    rw [refs_written h hip hE]
    refine hE.owns.exact.congr fun b _ => ?_
    rw [disk_written, used_setDinode h.layout hip.lt]
  full j hj ht b hb := by
    by_cases hji : j = i
    · subst hji
      rw [blockAt_written_self h hip hE]
      rw [size_written h hip hmax hW] at hb
      exact block_written h hip hW hb
    · rw [inode_written_other h hip hE hj hji] at ht hb ⊢
      have hold := h.full j hj ht b hb
      have hslot : blockAt s.disk (s.inode sb j) b
          = blockAt (s.written sb ip i q (off + k)).disk (s.inode sb j) b :=
        slot_congr rfl (fun hind => (disk_written_other h hip hE hj ht hji (k := NDIRECT) hind).symm) _
      rwa [← hslot]

/-- The contents are overwritten. -/
theorem contents_written_self (hoff : off ≤ (s.inode sb i).size.toNat) (hn : n ≤ src.length) :
    (s.written sb ip i q (off + k)).contents sb i = splice (s.contents sb i) off (src.take k) := by
  have hkn : k ≤ src.length := le_trans hW.count.2.1 hn
  have hk : (src.take k).length = k := by rw [length_take, Nat.min_eq_left hkn]
  refine ext_getElem? fun m => ?_
  rw [getElem?_splice (by rw [length_contents]; exact hoff), hk, Sys.contents, Sys.contents,
    getElem?_bytesAt, getElem?_bytesAt, size_written h hip hmax hW, Nat.zero_add]
  have hdiv : m / BSIZE * BSIZE ≤ m := Nat.div_mul_le_self m BSIZE
  by_cases hm : m < max (s.inode sb i).size.toNat (off + k)
  · have hbytes := hW.bytes m
    rw [if_pos hm, byteAt_written_self h hip hE
      (block_written h hip hW (lt_of_le_of_lt hdiv hm)), hbytes]
    by_cases hc : off ≤ m ∧ m < off + k
    · rw [if_pos hc, if_pos hc, List.getElem?_take_of_lt (by omega), Nat.zero_add,
        getD_eq_getElem?_getD, List.getElem?_eq_getElem (by omega), getD_some]
    · have hold : m < (s.inode sb i).size.toNat := by omega
      rw [if_neg hc, if_neg hc, if_pos hold]
      have ht : (s.inode sb i).type ≠ 0 := by rw [hip.inode h]; exact hip.type
      have hthere := h.full i hip.lt ht (m / BSIZE) (lt_of_le_of_lt hdiv hold)
      rw [hip.inode h] at hthere ⊢
      exact congrArg some (if_neg hthere)
  · rw [if_neg hm, if_neg (by omega), if_neg (by omega)]

end

/-! ## A new file system -/

namespace Mkfs

/-- A transaction that works on inode `i` of a new file system. -/
def held (d : Disk) (i : Nat) : Sys :=
  { boot d with
    log := some []
    itable := fun ip =>
      if ip = 0 then ⟨i, 1, true, true, dinode sb d i⟩ else ⟨0, 0, false, false, .zero⟩ }

variable {d : Disk} {i : Nat}

/-- A state that shows the inodes of the disk. -/
theorem noHoles_of_disk (h : Consistent sb s.disk) (hino : s.inode sb = dinode sb s.disk)
    (htable : ∀ ip jp, 0 < (s.itable ip).ref → 0 < (s.itable jp).ref →
      (s.itable ip).inum = (s.itable jp).inum → ip = jp) : NoHoles sb s where
  layout := sb_ok
  table := htable
  exact := by
    rw [hino]
    exact h.exact
  full i hi _ b hb := by
    rw [hino] at hb ⊢
    refine h.noHoles i hi b ?_
    have hB : BSIZE = 1024 := rfl
    rw [hB] at hb ⊢
    omega

end Mkfs

/-! ## Refinement -/

section
variable {sb : Super} {p : ProcPtr} {s : Sys} {ip : Ptr} {i : Nat}

/-- What a write of the bytes `bs` at `off` leaves. -/
structure Rewritten (sb : Super) (i off : Nat) (bs : List UInt8) (s t : Sys) : Prop where
  contents : t.contents sb i = splice (s.contents sb i) off bs
  size : (t.inode sb i).size.toNat = max (s.inode sb i).size.toNat (off + bs.length)
  type : (t.inode sb i).type = (s.inode sb i).type
  inodes : ∀ j < sb.ninodes.toNat, j ≠ i → t.inode sb j = s.inode sb j
  others : ∀ j < sb.ninodes.toNat, (s.inode sb j).type ≠ 0 → j ≠ i → t.contents sb j = s.contents sb j
  table : ∀ jp, ∃ x, t.itable jp = { s.itable jp with din := x }
  file : t.file = s.file
  noHoles : NoHoles sb t

/-- The end of the last block of a file. -/
def blockEnd (size : Nat) : Nat := (size + (BSIZE - 1)) / BSIZE * BSIZE

/-- The blocks that a write went through are in the header, each once. -/
theorem used_written {off n k : Nat} {q : Part}
    (hE : Edit sb (s.inode sb) i (s.part ip) q) (hW : Written src n off 0 (off + k) k (s.part ip) q) :
    (off + k) / BSIZE - off / BSIZE ≤ (s.written sb ip i q (off + k)).used := by
  have hB : BSIZE = 1024 := rfl
  set l := (List.range ((off + k) / BSIZE - off / BSIZE)).map fun j =>
    (blockAt q.disk q.din (off / BSIZE + j)).toNat
  have hthere : ∀ j < (off + k) / BSIZE - off / BSIZE, blockAt q.disk q.din (off / BSIZE + j) ≠ 0 :=
    fun j hj => hW.cover _ (by rw [hB] at *; omega)
  have hnodup : l.Nodup := by
    refine nodup_range.map_on fun a ha b hb hab => ?_
    have huniq := (hE.owns.data (hthere b (mem_range.mp hb))).2 i (slotOf (off / BSIZE + a))
      (by rw [hE.owns.refs_self]; exact hab)
    exact Nat.add_left_cancel (slotOf_inj (Prod.mk.inj huniq).2)
  have hsub : l ⊆ q.lh := by
    intro c hc
    obtain ⟨j, hj, rfl⟩ := mem_map.mp hc
    have hlt := mem_range.mp hj
    have hlog := hW.logged (max off ((off / BSIZE + j) * BSIZE)) (le_max_left ..)
      (by rw [hB] at *; omega)
    rwa [show max off ((off / BSIZE + j) * BSIZE) / BSIZE = off / BSIZE + j by rw [hB]; omega] at hlog
  have hlh : (q.extend (off + k)).lh = q.lh := by
    unfold Part.extend
    split <;> rfl
  have hle : l.length ≤ ((q.extend (off + k)).iupdate sb i).lh.length :=
    (hnodup.subperm fun c hc => subset_put (hlh ▸ hsub hc)).length_le
  rwa [length_map, length_range] at hle

/-- The write with an endless log. -/
theorem writei_endless {lh : List Nat} (h : NoHoles sb s) (hip : Held sb s ip i)
    (off n : UInt32) (hop : s.log = some lh) (hsrc : n.toNat ≤ src.length)
    (hoff : off.toNat ≤ (s.contents sb i).length)
    (hmax : off.toNat + n.toNat ≤ MAXFILE * BSIZE) : ∃ (k : Nat) (s' : Sys),
      (writei sb ip src off n).eval (endless p) s = .ok ((k : Int), s') ∧ k ≤ n.toNat ∧
      (k < n.toNat → Full sb s'.disk ∧
        blockEnd (s.contents sb i).length < off.toNat + n.toNat) ∧
      Rewritten sb i off.toNat (src.take k) s s' ∧
      (off.toNat + k) / BSIZE - off.toNat / BSIZE ≤ s'.used := by
  rw [length_contents] at hoff ⊢
  have ht : (s.inode sb i).type ≠ 0 := by rw [hip.inode h]; exact hip.type
  have hthere : ∀ b, b * BSIZE < (s.inode sb i).size.toNat →
      blockAt (s.part ip).disk (s.part ip).din b ≠ 0 := fun b hb => by
    have := h.full i hip.lt ht b hb
    rwa [hip.inode h] at this
  obtain ⟨k, q, he, hE, hW, hfull⟩ := writei_edit p ip hip.inum (owns_part h hip)
    hsrc (by rwa [hip.inode h] at hoff) hmax
    fun b hb => hthere b (hb.trans_le hoff)
  rw [Sys.edit_part hop] at he
  have hkn := hW.count.2.1
  have hlt : off.toNat + k < 2 ^ 32 := by
    have : MAXFILE * BSIZE < 2 ^ 32 := by decide
    omega
  have hlen : (src.take k).length = k := length_take_of_le (le_trans hkn hsrc)
  refine ⟨k, _, he, hkn, fun hk => ⟨full_written h hip (hfull hk), ?_⟩, ?_, used_written hE hW⟩
  · by_contra hle
    refine absurd (hW.all fun m _ hm => hthere _ ?_) (Nat.ne_of_lt hk)
    simp only [blockEnd, BSIZE] at hle ⊢
    omega
  exact
    { contents := contents_written_self h hip hE hlt hW hoff hsrc
      size := by
        rw [hlen]
        exact size_written h hip hlt hW
      type := by
        rw [← Sys.written, inode_written_self h hip, type_extend, hE.type, hip.inode h]
        rfl
      inodes := fun j hj hji => inode_written_other h hip hE hj hji
      others := fun j hj htj hji => contents_written_other h hip hE hj htj hji
      table := (forall_update_iff s.itable fun jp z =>
        ∃ x, z = { s.itable jp with din := x }).mpr ⟨⟨_, rfl⟩, fun jp _ => ⟨(s.itable jp).din, rfl⟩⟩
      file := rfl
      noHoles := noHoles_written h hip hE hlt hW }

end

end Xv6.Fs
