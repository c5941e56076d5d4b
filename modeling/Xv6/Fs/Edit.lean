/-
# `Xv6.Fs.Edit` — one inode being changed

While `writei` works on an inode, only three things change: blocks, the header of the
log, and the copy of that inode in memory (`Part`).  The copy runs ahead of the disk, so
the references to blocks are those of the inodes on disk with the copy in the place of
this one.

The log has no end here; `Xv6.Fs.Limit` says when that makes no difference.
-/
import Xv6.Fs.Read

namespace Xv6.Fs

open Machine Function List

/-! ## The part that changes -/

structure Part where
  disk : Disk
  lh : List Nat
  din : Dinode

namespace Part

/-- A block is stored and logged. -/
def put (q : Part) (b : Nat) (v : Block) : Part :=
  { q with disk := update q.disk b v, lh := absorb q.lh b }

def setDin (q : Part) (x : Dinode) : Part := { q with din := x }

/-- Block `b` is marked, and zeroed. -/
def alloc (sb : Super) (q : Part) (b : Nat) : Part :=
  (q.put (sb.BBLOCK b) ((q.disk (sb.BBLOCK b)).setBit (b % BPB))).put b (Bytes.zero BSIZE)

end Part

namespace Sys

/-- The part of the state that belongs to the inode at `ip`. -/
def part (s : Sys) (ip : Ptr) : Part := ⟨s.disk, s.log.getD [], (s.itable ip).din⟩

/-- The state with another such part. -/
def edit (s : Sys) (ip : Ptr) (q : Part) : Sys :=
  { s with
    disk := q.disk
    log := some q.lh
    itable := update s.itable ip { s.itable ip with din := q.din } }

variable {s : Sys} {ip : Ptr} {q : Part} {b : Nat} {v : Block} {x : Dinode}

theorem edit_part {lh : List Nat} (h : s.log = some lh) : s.edit ip (s.part ip) = s := by
  have hl : some (s.log.getD []) = s.log := by rw [h]; rfl
  simp [edit, part, hl]

@[simp] theorem disk_edit : (s.edit ip q).disk = q.disk := rfl

theorem itable_edit :
    (s.edit ip q).itable = update s.itable ip { s.itable ip with din := q.din } := rfl

@[simp] theorem itable_edit_self : (s.edit ip q).itable ip = { s.itable ip with din := q.din } :=
  update_self ..

theorem setDin_edit : (s.edit ip q).setDin ip x = s.edit ip (q.setDin x) := by
  simp [setDin, edit, setInode, Part.setDin]

end Sys

/-! ## balloc -/

variable {x : Dinode}

section
variable {sb : Super} {p : ProcPtr} {s : Sys} {ip : Ptr} {q : Part} {b : Nat} {data : Block}
  {bi : Nat}

theorem eval_getData_edit : (getData b).eval (endless p) (s.edit ip q) = .ok (q.disk b, s.edit ip q) :=
  rfl

theorem eval_din_edit : (Mem.din ip).eval (endless p) (s.edit ip q) = .ok (q.din, s.edit ip q) := by
  simp

theorem eval_setDin_edit :
    (Mem.setDin ip x).eval (endless p) (s.edit ip q) = .ok ((), s.edit ip (q.setDin x)) := by
  rw [eval_setDin, Sys.setDin_edit]

/-- `setData` and `log_write`. -/
theorem eval_put {α : Type} {v : Block} {k : Prog (FsSig Nat) α} :
    (do setData b v; logWrite b; k).eval (endless p) (s.edit ip q)
      = k.eval (endless p) (s.edit ip (q.put b v)) := rfl

theorem bzero_eval :
    (bzero b).eval (endless p) (s.edit ip q) = .ok ((), s.edit ip (q.put b (Bytes.zero BSIZE))) := by
  rw [bzero, Prog.eval_seq eval_bread, eval_put, eval_brelse]

theorem freeBit_some (h : freeBit sb data b = some bi) :
    bi < BPB ∧ b + bi < sb.size.toNat ∧ data.bit bi = false := by
  unfold freeBit at h
  have h1 := mem_of_find?_eq_some h
  have h2 := List.find?_some h
  simp only [Bool.and_eq_true, decide_eq_true_eq, Bool.not_eq_true'] at h2
  exact ⟨mem_range.mp h1, h2.1, h2.2⟩

theorem freeBit_none (h : freeBit sb data b = none) (hbi : bi < BPB)
    (hlt : b + bi < sb.size.toNat) : data.bit bi = true := by
  unfold freeBit at h
  have := List.find?_eq_none.mp h bi (mem_range.mpr hbi)
  simpa [hlt] using this

/-- No block is free. -/
def Full (sb : Super) (d : Disk) : Prop := ∀ b < sb.size.toNat, used sb d b = true

/-- The block of the bitmap that starts with the bit for `b`. -/
theorem bitmap_block (sb : Super) (hb : b % BPB = 0) (hbi : bi < BPB) :
    sb.BBLOCK (b + bi) = sb.BBLOCK b ∧ (b + bi) % BPB = bi := by
  simp only [BPB] at hb hbi
  simp only [Super.BBLOCK, BPB]
  omega

/-- A block that is allocated was free, and lies on the disk. -/
theorem ballocFrom_eval (bs : List Nat) (hbs : ∀ b ∈ bs, b % BPB = 0) :
    ((ballocFrom sb bs).eval (endless p) (s.edit ip q) = .ok (0, s.edit ip q) ∧
        ∀ b ∈ bs, freeBit sb (q.disk (sb.BBLOCK b)) b = none) ∨
      ∃ b, b < sb.size.toNat ∧ used sb q.disk b = false ∧
        (ballocFrom sb bs).eval (endless p) (s.edit ip q)
          = .ok (UInt32.ofNat b, s.edit ip (q.alloc sb b)) := by
  induction bs with
  | nil => exact .inl ⟨rfl, nofun⟩
  | cons b bs ih =>
    rw [ballocFrom, Prog.eval_seq eval_bread, Prog.eval_seq eval_getData_edit]
    cases hf : freeBit sb (q.disk (sb.BBLOCK b)) b with
    | none =>
      refine (ih fun c hc => hbs c (mem_cons_of_mem _ hc)).imp_left fun ⟨he, hnone⟩ => ⟨he, ?_⟩
      intro c hc
      rcases mem_cons.mp hc with rfl | hc
      · exact hf
      · exact hnone c hc
    | some bi =>
      obtain ⟨hlt, hsz, hbit⟩ := freeBit_some hf
      obtain ⟨hblock, hmod⟩ := bitmap_block sb (hbs b (mem_cons_self ..)) hlt
      refine .inr ⟨b + bi, hsz, by rw [used, hblock, hmod, hbit], ?_⟩
      rw [eval_put, Prog.eval_seq eval_brelse, Prog.eval_seq bzero_eval, Part.alloc, hblock,
        hmod]
      rfl

/-- `balloc` fails on a full disk only. -/
theorem balloc_eval (sb : Super) (p : ProcPtr) (ip : Ptr) (q : Part) :
    ((balloc sb).eval (endless p) (s.edit ip q) = .ok (0, s.edit ip q) ∧ Full sb q.disk) ∨
      ∃ b, b < sb.size.toNat ∧ used sb q.disk b = false ∧
        (balloc sb).eval (endless p) (s.edit ip q)
          = .ok (UInt32.ofNat b, s.edit ip (q.alloc sb b)) := by
  refine (ballocFrom_eval _ fun b hb => ?_).imp_left fun ⟨he, hnone⟩ => ⟨he, fun b hb => ?_⟩
  · obtain ⟨c, -, rfl⟩ := mem_map.mp hb
    exact Nat.mul_mod_left c BPB
  · have hbi : b % BPB < BPB := Nat.mod_lt _ (by decide)
    have hdiv : b / BPB * BPB + b % BPB = b := Nat.div_add_mod' b BPB
    have hmem : b / BPB * BPB ∈ (List.range ((sb.size.toNat + BPB - 1) / BPB)).map (· * BPB) := by
      refine mem_map.mpr ⟨b / BPB, mem_range.mpr ?_, rfl⟩
      simp only [BPB] at hdiv ⊢
      omega
    have hblock := (bitmap_block sb (Nat.mul_mod_left (b / BPB) BPB) hbi).1
    rw [hdiv] at hblock
    rw [used, hblock]
    exact freeBit_none (hnone _ hmem) hbi (by rwa [hdiv])

end

/-! ## References -/

/-- The inodes on disk, with a copy in the place of inode `i`. -/
abbrev edited (ino : Nat → Dinode) (i : Nat) (x : Dinode) : Nat → Dinode := update ino i x

/-- The references to blocks while inode `i` is changed. -/
abbrev Part.refs (sb : Super) (ino : Nat → Dinode) (i : Nat) (q : Part) : Nat × Nat → Nat :=
  Fs.refs sb.ninodes.toNat (edited ino i q.din) q.disk

/-- Inode `i` is in use, and the bitmap agrees with the references. -/
structure Owns (sb : Super) (ino : Nat → Dinode) (i : Nat) (q : Part) : Prop where
  layout : sb.Ok
  lt : i < sb.ninodes.toNat
  type : q.din.type ≠ 0
  exact : Exact (· < sb.nmeta) sb.size.toNat (q.refs sb ino i) fun b => used sb q.disk b = true

section
variable {sb : Super} {ino : Nat → Dinode} {i : Nat} {q q' : Part} {b j k : Nat} {v : Block}
  {c : Nat} {d : Disk} {q'' : Part}

theorem Owns.refs_self (h : Owns sb ino i q) :
    q.refs sb ino i (i, k) = (slot q.disk q.din k).toNat := by
  have : (edited ino i q.din i).type ≠ 0 := by
    rw [edited, update_self]
    exact h.type
  rw [Part.refs, refs_eq h.lt this, edited, update_self]

/-- A block that is not marked is a data block that nobody has. -/
theorem Owns.fresh (h : Owns sb ino i q) (hb : b < sb.size.toNat)
    (hu : used sb q.disk b = false) : sb.nmeta ≤ b ∧ b ≠ 0 ∧ ∀ a, q.refs sb ino i a ≠ b := by
  have hu' : ¬ used sb q.disk b = true := by rw [hu]; decide
  have hm : sb.nmeta ≤ b := by
    by_contra hlt
    exact hu' ((h.exact.used b hb).mpr (.inl (Nat.lt_of_not_le hlt)))
  have h0 : b ≠ 0 := by
    have := h.layout.bmapstart_lt
    omega
  exact ⟨hm, h0, h.exact.ne_of_not_used hu' h0⟩

theorem disk_alloc_data (hsb : sb.Ok) (hb : b < sb.size.toNat) (hc : sb.nmeta ≤ c)
    (hne : c ≠ b) : (q.alloc sb b).disk c = q.disk c := by
  rw [Part.alloc, Part.put]
  dsimp only
  rw [update_of_ne hne]
  exact setUsed_data hsb hb hc

theorem mem_absorb {lh : List Nat} : c ∈ absorb lh b ↔ c ∈ lh ∨ c = b := by
  unfold absorb
  split
  · next h => exact ⟨.inl, fun hc => hc.elim id fun he => he ▸ h⟩
  · rw [mem_append, mem_singleton]

theorem subset_put : q.lh ⊆ (q.put b v).lh := fun _ hc => mem_absorb.mpr (.inl hc)

theorem subset_alloc : q.lh ⊆ (q.alloc sb b).lh := Subset.trans subset_put subset_put

theorem disk_alloc_self : (q.alloc sb b).disk b = Bytes.zero BSIZE := update_self ..

theorem used_alloc (hsb : sb.Ok) (hb : sb.nmeta ≤ b) (hc : c < sb.size.toNat) :
    used sb (q.alloc sb b).disk c = true ↔ used sb q.disk c = true ∨ c = b := by
  have : (q.alloc sb b).disk = update (setUsed sb q.disk b) b (Bytes.zero BSIZE) := rfl
  rw [this, used_update_data hsb hc hb, used_setUsed, Bool.or_eq_true, decide_eq_true_eq, or_comm]

/-- Before it is stored anywhere, the new block changes no reference. -/
theorem refs_alloc (h : Owns sb ino i q) (hb : b < sb.size.toNat)
    (hu : used sb q.disk b = false) : (q.alloc sb b).refs sb ino i = q.refs sb ino i := by
  obtain ⟨-, -, hfresh⟩ := h.fresh hb hu
  refine refs_congr (fun _ _ => Iff.rfl) (fun _ _ _ => rfl) fun j hj ht hind => ?_
  have href : q.refs sb ino i (j, NDIRECT) = (edited ino i q.din j).ind.toNat := refs_eq hj ht
  have hne := hfresh (j, NDIRECT)
  have hrange := (h.exact.range (j, NDIRECT) (by rw [href]; exact toNat_ne_zero.mpr hind)).1
  rw [href] at hne hrange
  exact disk_alloc_data h.layout hb (Nat.le_of_not_lt hrange) hne

theorem toNat_ofNat_block (hb : b < sb.size.toNat) : (UInt32.ofNat b).toNat = b :=
  UInt32.toNat_ofNat_of_lt' (Nat.lt_trans hb sb.size.toNat_lt)

/-- The new block is stored in an address of the inode. -/
theorem refs_alloc_addr (h : Owns sb ino i q) {k : Fin (NDIRECT + 1)} (hk : q.din.addrs k = 0)
    (hb : b < sb.size.toNat) (hu : used sb q.disk b = false) :
    ((q.alloc sb b).setDin (q.din.setAddr k (UInt32.ofNat b))).refs sb ino i
      = update (q.refs sb ino i) (i, k.val) b := by
  have hbn := toNat_ofNat_block hb
  have hself : edited ino i q.din i = q.din := update_self ..
  rw [← refs_alloc h hb hu]
  have hset : Fs.refs sb.ninodes.toNat (update (edited ino i q.din) i
      ((edited ino i q.din i).setAddr k (UInt32.ofNat b))) (q.alloc sb b).disk = _ :=
    refs_setAddr h.lt (by rw [hself]; exact h.type) fun hlast => by
      subst hlast
      rw [hself, hbn]
      exact ⟨hk, disk_alloc_self⟩
  rwa [hself, hbn, update_idem] at hset

/-- The new block is stored in an entry of the indirect block. -/
theorem refs_alloc_entry (h : Owns sb ino i q) (hind : q.din.ind ≠ 0) (hj : j < NINDIRECT)
    (hb : b < sb.size.toNat) (hu : used sb q.disk b = false) :
    ((q.alloc sb b).put q.din.ind.toNat ((q.disk q.din.ind.toNat).setU32 (4 * j)
        (UInt32.ofNat b))).refs sb ino i
      = update (q.refs sb ino i) (i, NDIRECT + 1 + j) b := by
  obtain ⟨-, -, hfresh⟩ := h.fresh hb hu
  have hself : edited ino i q.din i = q.din := update_self ..
  have href : q.refs sb ino i (i, NDIRECT) = q.din.ind.toNat := h.refs_self
  have h0 : q.refs sb ino i (i, NDIRECT) ≠ 0 := by rw [href]; exact toNat_ne_zero.mpr hind
  have hdata : (q.alloc sb b).disk q.din.ind.toNat = q.disk q.din.ind.toNat := by
    have := hfresh (i, NDIRECT)
    have hr := (h.exact.range _ h0).1
    rw [href] at this hr
    exact disk_alloc_data h.layout hb (Nat.le_of_not_lt hr) this
  have hset : Fs.refs sb.ninodes.toNat (edited ino i q.din) (update (q.alloc sb b).disk
      (edited ino i q.din i).ind.toNat (((q.alloc sb b).disk (edited ino i q.din i).ind.toNat).setU32
        (4 * j) (UInt32.ofNat b))) = _ :=
    refs_setEntry h.lt (by rw [hself]; exact h.type) (by rwa [hself]) hj fun i' hi' => by
      have : q.refs sb ino i (i', NDIRECT) = q.refs sb ino i (i, NDIRECT) := by
        rw [hself] at hi'
        rw [href]
        exact (congrFun (refs_alloc h hb hu) _).symm.trans hi'
      exact congrArg Prod.fst (h.exact.inj _ _ this (by rwa [this]))
  rw [hself, hdata, toNat_ofNat_block hb] at hset
  rwa [← refs_alloc h hb hu]

theorem Owns.alloc (h : Owns sb ino i q) {a : Nat × Nat} (ha : q.refs sb ino i a = 0)
    (hb : b < sb.size.toNat) (hu : used sb q.disk b = false) (ht : q'.din.type = q.din.type)
    (hrefs : q'.refs sb ino i = update (q.refs sb ino i) a b)
    (hused : ∀ c < sb.size.toNat, used sb q'.disk c = used sb (q.alloc sb b).disk c) :
    Owns sb ino i q' := by
  obtain ⟨hm, h0, -⟩ := h.fresh hb hu
  refine ⟨h.layout, h.lt, ht ▸ h.type, ?_⟩
  rw [hrefs]
  refine (h.exact.alloc hb h0 (by rw [hu]; decide) ha).congr fun c hc => ?_
  rw [hused c hc]
  exact used_alloc h.layout hm hc

/-- A block of the inode is a data block, and nobody else's. -/
theorem Owns.data (h : Owns sb ino i q) (hs : slot q.disk q.din k ≠ 0) :
    sb.nmeta ≤ (slot q.disk q.din k).toNat ∧
      ∀ j m, q.refs sb ino i (j, m) = (slot q.disk q.din k).toNat → (j, m) = (i, k) := by
  have href : q.refs sb ino i (i, k) = (slot q.disk q.din k).toNat := h.refs_self
  have h0 : q.refs sb ino i (i, k) ≠ 0 := by rw [href]; exact toNat_ne_zero.mpr hs
  refine ⟨?_, fun j m hjm => ?_⟩
  · rw [← href]
    exact Nat.le_of_not_lt (h.exact.range _ h0).1
  · rw [← href] at hjm
    exact h.exact.inj _ _ hjm (by rwa [hjm])

theorem Owns.refs_data (h : Owns sb ino i q) (hk : k ≠ NDIRECT)
    (hs : slot q.disk q.din k ≠ 0) (v : Block) :
    Fs.refs sb.ninodes.toNat (edited ino i q.din)
      (update q.disk (slot q.disk q.din k).toNat v) = q.refs sb ino i :=
  refs_update_disk fun j hj => hk (congrArg Prod.snd ((h.data hs).2 j NDIRECT hj)).symm

/-! ## Changes -/

/-- Nothing outside the bitmap changes but blocks of inode `i` and free ones. -/
structure Apart (sb : Super) (ino : Nat → Dinode) (i : Nat) (q : Part) (d : Disk) : Prop where
  low : ∀ c < sb.bmapstart.toNat, d c = q.disk c
  others : ∀ j k, j ≠ i → q.refs sb ino i (j, k) ≠ 0 →
    d (q.refs sb ino i (j, k)) = q.disk (q.refs sb ino i (j, k))

theorem Apart.refl : Apart sb ino i q q.disk := ⟨fun _ _ => rfl, fun _ _ _ _ => rfl⟩

theorem Apart.update (h : Apart sb ino i q d) (hc : sb.bmapstart.toNat ≤ c)
    (hne : ∀ j k, j ≠ i → q.refs sb ino i (j, k) ≠ 0 → q.refs sb ino i (j, k) ≠ c) :
    Apart sb ino i q (Function.update d c v) where
  low c' hc' := by
    rw [update_of_ne (by omega)]
    exact h.low c' hc'
  others j k hj h0 := by
    rw [update_of_ne (hne j k hj h0)]
    exact h.others j k hj h0

/-- A block of the bitmap. -/
theorem Apart.bitmap (h : Apart sb ino i q d) (ho : Owns sb ino i q)
    (hc : sb.bmapstart.toNat ≤ c) (hc' : c < sb.nmeta) : Apart sb ino i q (Function.update d c v) :=
  h.update hc fun j k _ h0 => by
    have := (ho.exact.range (j, k) h0).1
    omega

theorem Apart.alloc (h : Owns sb ino i q) (hb : b < sb.size.toNat)
    (hu : used sb q.disk b = false) : Apart sb ino i q (q.alloc sb b).disk := by
  obtain ⟨hm, -, hfresh⟩ := h.fresh hb hu
  have hlow := h.layout.bmapstart_lt
  exact (Apart.refl.bitmap h Super.le_bblock (h.layout.bblock_lt hb)).update (by omega)
    fun j k _ _ => hfresh _

/-- A block of the inode itself. -/
theorem Apart.own (h : Apart sb ino i q d) (ho : Owns sb ino i q) (hs : slot q.disk q.din k ≠ 0) :
    Apart sb ino i q (Function.update d (slot q.disk q.din k).toNat v) := by
  obtain ⟨hm, huniq⟩ := ho.data hs
  have hlow := ho.layout.bmapstart_lt
  exact h.update (by omega) fun j m hj _ he => hj (congrArg Prod.fst (huniq j m he))

/-- Changes to inode `i` that leave everything else as it is. -/
structure Edit (sb : Super) (ino : Nat → Dinode) (i : Nat) (q q' : Part) : Prop where
  owns : Owns sb ino i q'
  type : q'.din.type = q.din.type
  apart : Apart sb ino i q q'.disk

theorem Edit.refl (h : Owns sb ino i q) : Edit sb ino i q q := ⟨h, rfl, Apart.refl⟩

theorem over_ne (h : j ≠ i) : edited ino i x j = ino j := update_of_ne h ..

theorem Apart.refs (h : Apart sb ino i q q'.disk) (hj : j ≠ i) (k : Nat) :
    q'.refs sb ino i (j, k) = q.refs sb ino i (j, k) := by
  have hind := h.others j NDIRECT hj
  simp only [Part.refs, Fs.refs, over_ne hj] at hind ⊢
  by_cases hc : j < sb.ninodes.toNat ∧ (ino j).type ≠ 0
  · rw [if_pos hc, if_pos hc]
    rw [if_pos hc, slot_ind] at hind
    refine congrArg UInt32.toNat (slot_congr rfl (fun h0 => hind (toNat_ne_zero.mpr h0)) k)
  · rw [if_neg hc, if_neg hc]

theorem Edit.trans (h : Edit sb ino i q q') (h' : Edit sb ino i q' q'') : Edit sb ino i q q'' where
  owns := h'.owns
  type := h'.type.trans h.type
  apart :=
    { low := fun c hc => (h'.apart.low c hc).trans (h.apart.low c hc)
      others := fun j k hj h0 => by
        have heq := h.apart.refs hj k
        have h2 := h'.apart.others j k hj (by rwa [heq])
        rw [heq] at h2
        exact h2.trans (h.apart.others j k hj h0) }

/-! ## Contents -/

/-- Byte `m` of a file, 0 where there is no block. -/
def content (d : Disk) (x : Dinode) (m : Nat) : UInt8 :=
  if blockAt d x (m / BSIZE) = 0 then 0 else byteAt d x m

/-- Blocks are added to a file, and its contents stay. -/
structure Grown (q q' : Part) : Prop where
  size : q'.din.size = q.din.size
  keep : ∀ n, blockAt q.disk q.din n ≠ 0 → blockAt q'.disk q'.din n = blockAt q.disk q.din n
  content : ∀ m, content q'.disk q'.din m = content q.disk q.din m
  log : q.lh ⊆ q'.lh

theorem Grown.refl (q : Part) : Grown q q := ⟨rfl, fun _ _ => rfl, fun _ => rfl, Subset.refl _⟩

theorem Grown.trans (h : Grown q q') (h' : Grown q' q'') : Grown q q'' where
  size := h'.size.trans h.size
  keep n hn := by
    have h1 := h.keep n hn
    rw [← h1, h'.keep n (by rw [h1]; exact hn)]
  content m := (h'.content m).trans (h.content m)
  log := Subset.trans h.log h'.log

/-- A block of zeros where there was none. -/
theorem Grown.of_alloc (h : Owns sb ino i q) (h' : Owns sb ino i q')
    (hsize : q'.din.size = q.din.size) (hslot : slot q.disk q.din k = 0)
    (hrefs : q'.refs sb ino i = update (q.refs sb ino i) (i, k) b)
    (hdata : ∀ n, blockAt q.disk q.din n ≠ 0 →
      q'.disk (blockAt q.disk q.din n).toNat = q.disk (blockAt q.disk q.din n).toNat)
    (hzero : q'.disk b = Bytes.zero BSIZE) (hlog : q.lh ⊆ q'.lh) : Grown q q' := by
  have hne : ∀ m, m ≠ k → slot q'.disk q'.din m = slot q.disk q.din m := fun m hm => by
    have := congrFun hrefs (i, m)
    rw [h'.refs_self, update_of_ne (fun he => hm (Prod.mk.inj he).2), h.refs_self] at this
    exact UInt32.toNat_inj.mp this
  have hk : (slot q'.disk q'.din k).toNat = b := by
    have := congrFun hrefs (i, k)
    rwa [h'.refs_self, update_self] at this
  have hkeep : ∀ n, blockAt q.disk q.din n ≠ 0 →
      blockAt q'.disk q'.din n = blockAt q.disk q.din n := fun n hn =>
    hne _ fun he => hn (by rw [blockAt, he, hslot])
  refine ⟨hsize, hkeep, fun m => ?_, hlog⟩
  unfold Fs.content
  by_cases h0 : blockAt q.disk q.din (m / BSIZE) = 0
  · rw [if_pos h0]
    by_cases hm : slotOf (m / BSIZE) = k
    · split
      · rfl
      · rw [byteAt, blockAt, hm, hk, hzero, Bytes.byte_zero]
    · have : blockAt q'.disk q'.din (m / BSIZE) = 0 := by
        rwa [blockAt, hne _ hm]
      rw [if_pos this]
  · rw [if_neg h0, if_neg (by rw [hkeep _ h0]; exact h0), byteAt, hkeep _ h0, hdata _ h0, byteAt]

/-! ## bmap -/

variable {s : Sys} (p : ProcPtr) (ip : Ptr)

/-- A block of the file is none of the blocks `balloc` writes. -/
theorem Owns.disk_alloc (h : Owns sb ino i q) (hb : b < sb.size.toNat) (hu : used sb q.disk b = false)
    (hs : slot q.disk q.din k ≠ 0) :
    (q.alloc sb b).disk (slot q.disk q.din k).toNat = q.disk (slot q.disk q.din k).toNat := by
  obtain ⟨-, -, hfresh⟩ := h.fresh hb hu
  have hne := hfresh (i, k)
  rw [h.refs_self] at hne
  exact disk_alloc_data h.layout hb (h.data hs).1 hne

theorem bmapAddr_edit (h : Owns sb ino i q) (k : Fin (NDIRECT + 1)) :
    ∃ r q', (bmapAddr sb ip k).eval (endless p) (s.edit ip q) = .ok (r, s.edit ip q') ∧
      Edit sb ino i q q' ∧ Grown q q' ∧ (r ≠ 0 → q'.din.addrs k = r) ∧
      (r = 0 → Full sb q'.disk) := by
  rw [bmapAddr, Prog.eval_seq eval_din_edit]
  by_cases h0 : q.din.addrs k = 0
  · rw [if_pos h0]
    rcases balloc_eval sb p ip q with ⟨hb, hfull⟩ | ⟨b, hb, hu, he⟩
    · refine ⟨0, q, ?_, Edit.refl h, Grown.refl q, absurd rfl, fun _ => hfull⟩
      rw [Prog.eval_seq hb]
      rfl
    · obtain ⟨hm, hb0, -⟩ := h.fresh hb hu
      have hbn := toNat_ofNat_block hb
      have hr : UInt32.ofNat b ≠ 0 := by
        rwa [← toNat_ne_zero, hbn]
      have hslot : slot q.disk q.din k.val = 0 := by rw [slot_addr k.isLt, h0]
      have hrefs := refs_alloc_addr h h0 hb hu
      have hO : Owns sb ino i ((q.alloc sb b).setDin (q.din.setAddr k (UInt32.ofNat b))) :=
        h.alloc (by rw [h.refs_self, hslot]; rfl) hb hu rfl hrefs fun _ _ => rfl
      refine ⟨UInt32.ofNat b, _, ?_, ⟨hO, rfl, Apart.alloc h hb hu⟩, Grown.of_alloc h hO rfl hslot hrefs
          (fun n hn => h.disk_alloc hb hu hn) disk_alloc_self subset_alloc,
        fun _ => update_self .., fun h0 => absurd h0 hr⟩
      rw [Prog.eval_seq he, if_pos hr, Prog.eval_seq eval_setDin_edit]
      rfl
  · rw [if_neg h0]
    exact ⟨q.din.addrs k, q, rfl, Edit.refl h, Grown.refl q, fun _ => rfl, fun h1 => absurd h1 h0⟩

theorem bmapEntry_edit (h : Owns sb ino i q) (hind : q.din.ind ≠ 0) (hj : j < NINDIRECT) :
    ∃ r q', (bmapEntry sb q.din.ind j).eval (endless p) (s.edit ip q) = .ok (r, s.edit ip q') ∧
      Edit sb ino i q q' ∧ Grown q q' ∧
      (r ≠ 0 → slot q'.disk q'.din (NDIRECT + 1 + j) = r) ∧ (r = 0 → Full sb q'.disk) := by
  have hse : slot q.disk q.din (NDIRECT + 1 + j) = (q.disk q.din.ind.toNat).u32 (4 * j) :=
    slot_entry hind hj
  rw [bmapEntry, Prog.eval_seq eval_bread, Prog.eval_seq eval_getData_edit]
  by_cases h0 : (q.disk q.din.ind.toNat).u32 (4 * j) = 0
  · rw [if_pos h0]
    have hslot : slot q.disk q.din (NDIRECT + 1 + j) = 0 := by rw [hse, h0]
    rcases balloc_eval sb p ip q with ⟨hb, hfull⟩ | ⟨b, hb, hu, he⟩
    · refine ⟨0, q, ?_, Edit.refl h, Grown.refl q, absurd rfl, fun _ => hfull⟩
      rw [Prog.eval_seq hb]
      rfl
    · obtain ⟨hm, hb0, hfresh⟩ := h.fresh hb hu
      have hbn := toNat_ofNat_block hb
      have hr : UInt32.ofNat b ≠ 0 := by
        rwa [← toNat_ne_zero, hbn]
      have hrefs := refs_alloc_entry h hind hj hb hu
      obtain ⟨q', hq'⟩ : ∃ q', (q.alloc sb b).put q.din.ind.toNat
          ((q.disk q.din.ind.toNat).setU32 (4 * j) (UInt32.ofNat b)) = q' := ⟨_, rfl⟩
      rw [hq'] at hrefs
      have hdin : q'.din = q.din := by rw [← hq']; rfl
      have hdisk : ∀ c, c ≠ q.din.ind.toNat → q'.disk c = (q.alloc sb b).disk c := fun c hc => by
        rw [← hq']
        exact update_of_ne hc ..
      obtain ⟨hmi, huniq⟩ := h.data (by rwa [slot_ind])
      have hO : Owns sb ino i q' := h.alloc (by rw [h.refs_self, hslot]; rfl) hb hu (by rw [hdin]) hrefs
        fun c hc => by rw [← hq']; exact used_update_data h.layout hc hmi
      refine ⟨UInt32.ofNat b, q', ?_, ⟨hO, by rw [hdin], ?_⟩, Grown.of_alloc h hO (by rw [hdin]) hslot
        hrefs (fun n hn => ?_) ?_ ?_, fun _ => ?_, fun h0 => absurd h0 hr⟩
      · rw [Prog.eval_seq he, if_pos hr, eval_put, hq']
        rfl
      · rw [← hq']
        exact (Apart.alloc h hb hu).own h (by rwa [slot_ind])
      · rw [hdisk _ fun he => ?_]
        · exact h.disk_alloc hb hu hn
        · have := huniq i (slotOf n) (by rwa [h.refs_self])
          exact slotOf_ne_ind (Prod.mk.inj this).2
      · rw [hdisk b fun he => hfresh (i, NDIRECT) (by rw [h.refs_self, slot_ind, he]),
          disk_alloc_self]
      · rw [← hq']
        exact Subset.trans subset_alloc subset_put
      · have := congrFun hrefs (i, NDIRECT + 1 + j)
        rw [hO.refs_self, update_self] at this
        exact UInt32.toNat_inj.mp (this.trans hbn.symm)
  · rw [if_neg h0]
    exact ⟨_, q, rfl, Edit.refl h, Grown.refl q, fun _ => hse, fun h1 => absurd h1 h0⟩

theorem bmap_edit (h : Owns sb ino i q) {bn : Nat} (hbn : bn < MAXFILE) :
    ∃ r q', (bmap sb ip bn).eval (endless p) (s.edit ip q) = .ok (r, s.edit ip q') ∧
      Edit sb ino i q q' ∧ Grown q q' ∧ (r ≠ 0 → blockAt q'.disk q'.din bn = r) ∧
      (r = 0 → Full sb q'.disk) := by
  unfold bmap
  by_cases hd : bn < NDIRECT
  · obtain ⟨r, q', he, hE, hG, hr, hfull⟩ := bmapAddr_edit p ip h
      ⟨bn, by omega⟩
    rw [dif_pos hd]
    refine ⟨r, q', he, hE, hG, fun h0 => ?_, hfull⟩
    rw [blockAt, slotOf, if_pos hd, slot_addr (by omega), hr h0]
  · have hlt : bn - NDIRECT < NINDIRECT := by
      simp only [MAXFILE] at hbn
      omega
    obtain ⟨r, q', he, hE, hG, hr, hfull⟩ := bmapAddr_edit p ip h
      (Fin.last NDIRECT)
    rw [dif_neg hd, if_pos hlt, Prog.eval_seq he]
    by_cases h0 : r = 0
    · rw [if_pos h0]
      exact ⟨0, q', rfl, hE, hG, absurd rfl, fun _ => hfull h0⟩
    · have hind : q'.din.ind = r := hr h0
      obtain ⟨r', q'', he', hE', hG', hr', hfull'⟩ := bmapEntry_edit p ip hE.owns (by rwa [hind]) hlt
      rw [if_neg h0, ← hind, he']
      refine ⟨r', q'', rfl, hE.trans hE', hG.trans hG', fun h0' => ?_, hfull'⟩
      rw [blockAt, slotOf, if_neg hd, ← hr' h0']
      congr 1
      omega

end

end Xv6.Fs
