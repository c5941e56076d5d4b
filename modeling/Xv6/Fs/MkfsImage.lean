/-
# `Xv6.Fs.MkfsImage` — the image `mkfs` leaves

The loop over the input files, the correction of the size of the root directory, and
the bitmap.  `Made files d` says everything about the image: which inodes there are,
what each holds, and which blocks the bitmap marks.

The correction rounds the size of the root directory up to the NEXT multiple of
`BSIZE`, also when it is one already: with 64 entries to a block, a directory whose
entries fill their last block gets a size that ends in a block it does not have.

**Proved here.**

  * the image is consistent unless `files + 2` is a multiple of 64 (`mkfs_consistent`)
  * 62 input files (`mkfs_hole`)
-/
import Xv6.Fs.MkfsSpec

namespace Xv6.Fs.Mkfs

open Machine Function List

/-! ## What the image is to hold -/

/-- The name of an input file in the image. -/
def HostFile.short (f : HostFile) : List UInt8 := (shortname f.arg).getD []

/-- The entries of the root directory. -/
def rootEntries (files : List HostFile) : List Dirent :=
  ⟨UInt16.ofNat ROOTINO, dot⟩ :: ⟨UInt16.ofNat ROOTINO, dotdot⟩ ::
    files.mapIdx fun k f => ⟨UInt16.ofNat (k + 2), f.short⟩

/-- What inode `i` holds. -/
def contents (files : List HostFile) (i : Nat) : List UInt8 :=
  if i = ROOTINO then (rootEntries files).flatMap Dirent.bytes
  else if i < 2 then [] else ((files[i - 2]?).map HostFile.bytes).getD []

/-- Input that fits: names of at most `DIRSIZ` bytes, all different, inodes and blocks
for everything. -/
structure Fits (files : List HostFile) : Prop where
  names : ∀ f ∈ files, (shortname f.arg).isSome
  distinct : (files.map HostFile.short).Nodup
  count : files.length ≤ NINODES - 2
  sizes : ∀ f ∈ files, f.bytes.length ≤ MAXFILE * BSIZE
  total : nmeta + slotsFor (16 * (files.length + 2))
    + (files.map fun f => slotsFor f.bytes.length).sum ≤ FSSIZE

section
variable {files rest : List HostFile} {f : HostFile} {s t : Mk} {c c' : Nat → List UInt8}
  {i k m : Nat} {l : List UInt8} {d : Disk}

@[simp] theorem length_rootEntries : (rootEntries files).length = files.length + 2 := by
  simp [rootEntries]

theorem length_flatMap_bytes (es : List Dirent) :
    (es.flatMap Dirent.bytes).length = 16 * es.length := by
  induction es with
  | nil => rfl
  | cons e es ih =>
    rw [flatMap_cons, length_append, Dirent.length_bytes, ih, length_cons]
    omega

theorem length_root : (contents files ROOTINO).length = 16 * (files.length + 2) := by
  rw [contents, if_pos rfl, length_flatMap_bytes, length_rootEntries]

theorem contents_file (h : k < files.length) : contents files (k + 2) = files[k].bytes := by
  have h1 : k + 2 ≠ ROOTINO := by simp only [ROOTINO]; omega
  rw [contents, if_neg h1, if_neg (by omega), Nat.add_sub_cancel, List.getElem?_eq_getElem h]
  rfl

theorem contents_dead (h : i = 0 ∨ files.length + 2 ≤ i) : contents files i = [] := by
  have h1 : i ≠ ROOTINO := by simp only [ROOTINO]; omega
  rw [contents, if_neg h1]
  split
  · rfl
  · rw [List.getElem?_eq_none (by omega)]
    rfl

theorem rootEntries_append : rootEntries (files ++ [f])
    = rootEntries files ++ [⟨UInt16.ofNat (files.length + 2), f.short⟩] := by
  simp [rootEntries, mapIdx_append]

/-- One more file: an entry in the root directory, and an inode. -/
theorem contents_append : contents (files ++ [f]) = update (update (contents files)
    ROOTINO (contents files ROOTINO
      ++ Dirent.bytes ⟨UInt16.ofNat (files.length + 2), f.short⟩)) (files.length + 2) f.bytes := by
  funext i
  by_cases hi : i = files.length + 2
  · subst hi
    have : files.length < (files ++ [f]).length := by simp
    rw [update_self, contents_file this, getElem_append_right (Nat.le_refl _)]
    simp
  · rw [update_of_ne hi]
    by_cases h1 : i = ROOTINO
    · subst h1
      rw [update_self, contents, if_pos rfl, rootEntries_append, flatMap_append, contents,
        if_pos rfl]
      simp
    · rw [update_of_ne h1, contents, if_neg h1, contents, if_neg h1]
      split
      · rfl
      · by_cases hlt : i - 2 < files.length
        · rw [List.getElem?_append_left hlt]
        · rw [List.getElem?_eq_none (by simp; omega), List.getElem?_eq_none (by omega)]

/-! ## Room -/

theorem Room.mono (h : Room c') (hle : ∀ i, (c i).length ≤ (c' i).length) : Room c :=
  Nat.le_trans (Nat.add_le_add_left (Finset.sum_le_sum fun i _ => slotsFor_mono (hle i)) _) h

theorem sum_getElem? (g : HostFile → Nat) : ∀ (files : List HostFile) {n : Nat}, files.length ≤ n →
    ∑ k ∈ Finset.range n, ((files[k]?).map g).getD 0 = (files.map g).sum
  | [], n, _ => by simp
  | f :: fs, 0, h => absurd h (Nat.not_succ_le_zero _)
  | f :: fs, n + 1, h => by
    have ih := sum_getElem? g fs (Nat.le_of_succ_le_succ h)
    rw [Finset.sum_range_succ', map_cons, sum_cons, ← ih, Nat.add_comm]
    rfl

theorem Fits.room (h : Fits files) : Room (contents files) := by
  have hN : NINODES = 198 + 2 := rfl
  have hcount : files.length ≤ 198 := h.count
  have hsum : ∑ k ∈ Finset.range 198, slotsFor (contents files (k + 2)).length
      = (files.map fun f => slotsFor f.bytes.length).sum := by
    rw [← sum_getElem? _ files hcount]
    refine Finset.sum_congr rfl fun k _ => ?_
    by_cases hk : k < files.length
    · rw [contents_file hk, List.getElem?_eq_getElem hk]
      rfl
    · rw [contents_dead (by omega), List.getElem?_eq_none (by omega)]
      rfl
  have h0 : contents files 0 = [] := contents_dead (.inl rfl)
  have htotal := h.total
  rw [Room, hN, Finset.sum_range_succ', Finset.sum_range_succ', hsum, h0]
  rw [show contents files (0 + 1) = contents files ROOTINO from rfl, length_root]
  have : slotsFor ([] : List UInt8).length = 0 := rfl
  omega

theorem contents_le (h : k ≤ files.length) (i : Nat) :
    (contents (files.take k) i).length ≤ (contents files i).length := by
  by_cases h1 : i = ROOTINO
  · subst h1
    rw [length_root, length_root, length_take]
    omega
  · rw [contents, if_neg h1, contents, if_neg h1]
    split
    · exact Nat.le_refl _
    · by_cases hlt : i - 2 < k
      · rw [List.getElem?_take_of_lt hlt]
      · rw [List.getElem?_eq_none (by rw [length_take]; omega)]
        exact Nat.zero_le _

/-! ## The loop over the input -/

theorem appendFile_spec (h : Img s c) (hi : s.Live i)
    (hmax : (c i).length + l.length ≤ MAXFILE * BSIZE)
    (hroom : Room (update c i (c i ++ l))) :
    Succeeds (appendFile i l) s fun _ t =>
      Img t (update c i (c i ++ l)) ∧ t.freeinode = s.freeinode := by
  induction hl : l.length using Nat.strong_induction_on generalizing s c l with
  | _ N ih =>
  unfold appendFile
  split
  · next hnil =>
      subst hnil
      rw [append_nil, update_eq_self]
      exact Succeeds.pure ⟨h, rfl⟩
  · next hne =>
      have hpos : 0 < l.length := length_pos_iff.mpr hne
      have hle : (l.take BSIZE).length ≤ l.length := by rw [length_take]; omega
      have hroom' : Room (update c i (c i ++ l.take BSIZE)) := by
        refine hroom.mono fun j => ?_
        by_cases hj : j = i
        · subst hj
          rw [update_self, update_self, length_append, length_append]
          omega
        · rw [update_of_ne hj, update_of_ne hj]
      refine (iappend_spec h hi (by omega) hroom').seq fun _ t ht => ?_
      obtain ⟨hI, hf⟩ := ht
      have hi' : t.Live i := by rwa [Mk.Live, hf]
      have hcat : update (update c i (c i ++ l.take BSIZE)) i
          (update c i (c i ++ l.take BSIZE) i ++ l.drop BSIZE)
          = update c i (c i ++ l) := by
        rw [update_idem, update_self, append_assoc, take_append_drop]
      have hL := ih (l.drop BSIZE).length (by rw [length_drop]; simp only [BSIZE]; omega) hI hi'
        (by rw [update_self, length_append, length_take, length_drop]; omega)
        (by rw [hcat]; exact hroom) rfl
      rw [hcat] at hL
      exact hL.mono fun _ u hu => ⟨hu.1, hu.2.trans hf⟩

theorem addFile_spec (hf : Fits files) (hk : k < files.length) (hfk : files[k] = f)
    (h : Img s (contents (files.take k))) (hfree : s.freeinode = k + 2) :
    Succeeds (addFile ROOTINO f) s fun _ t =>
      Img t (contents (files.take (k + 1))) ∧ t.freeinode = k + 1 + 2 := by
  have hcount : files.length ≤ 198 := hf.count
  have hlen : (files.take k).length = k := by rw [length_take]; omega
  have hmem : f ∈ files := hfk ▸ getElem_mem hk
  have hsize := hf.sizes _ hmem
  have hnext : contents (files.take (k + 1)) = update (update
      (contents (files.take k)) ROOTINO (contents (files.take k) ROOTINO
        ++ Dirent.bytes ⟨UInt16.ofNat (k + 2), f.short⟩)) (k + 2) f.bytes := by
    rw [take_succ_eq_append_getElem hk, hfk, contents_append, hlen]
  have hroom : Room (contents (files.take (k + 1))) := hf.room.mono (contents_le (by omega))
  have h2 : ROOTINO ≠ k + 2 := by simp only [ROOTINO]; omega
  unfold addFile
  obtain ⟨short, hshort⟩ := Option.isSome_iff_exists.mp (hf.names _ hmem)
  have hs : f.short = short := by rw [HostFile.short, hshort]; rfl
  rw [hshort]
  refine (ialloc_spec h (by rw [hfree]; simp only [NINODES]; omega)
    (by rw [hfree, kind, if_neg h2.symm])).seq fun i t ht => ?_
  obtain ⟨rfl, hI, hfree'⟩ := ht
  rw [hfree] at hfree' ⊢
  have hroot : t.Live ROOTINO := ⟨by decide, by rw [hfree']; simp only [ROOTINO]; omega⟩
  have hdead : contents (files.take k) (k + 2) = [] := contents_dead (.inr (by rw [hlen]))
  refine (iappend_spec hI hroot ?_ ?_).seq fun _ u hu => ?_
  · rw [length_root, hlen, Dirent.length_bytes]
    simp only [MAXFILE, NDIRECT, NINDIRECT, BSIZE]
    omega
  · refine hroom.mono fun j => ?_
    rw [hnext, hs]
    by_cases hj : j = k + 2
    · subst hj
      rw [update_of_ne h2.symm, hdead]
      exact Nat.zero_le _
    · rw [update_of_ne hj]
  · obtain ⟨hI', hfree''⟩ := hu
    have hlive : u.Live (k + 2) := ⟨Nat.succ_pos _, by rw [hfree'', hfree']; omega⟩
    have hempty : update (contents (files.take k)) ROOTINO (contents (files.take k) ROOTINO
        ++ Dirent.bytes ⟨UInt16.ofNat (k + 2), short⟩) (k + 2) = [] := by
      rw [update_of_ne h2.symm, hdead]
    have hA := appendFile_spec (l := f.bytes) hI' hlive (by
      rw [hempty, length_nil, Nat.zero_add]; exact hsize) (by
      rwa [hempty, nil_append, ← hs, ← hnext])
    rw [hempty, nil_append, ← hs, ← hnext] at hA
    exact hA.mono fun _ v hv => ⟨hv.1, by rw [hv.2, hfree'', hfree']⟩

theorem addFiles_spec (hf : Fits files) (h : Img s (contents [])) (hfree : s.freeinode = 2) :
    Succeeds (files.forM (addFile ROOTINO)) s fun _ t =>
      Img t (contents files) ∧ t.freeinode = files.length + 2 := by
  -- the files done so far are those before the rest of the list
  have hloop := Succeeds.forM (g := addFile ROOTINO) (I := fun rest t =>
      ∃ k, files.drop k = rest ∧ k ≤ files.length ∧ Img t (contents (files.take k)) ∧
        t.freeinode = k + 2) (fun f rest t ht => ?_) files ⟨0, rfl, Nat.zero_le _, h, hfree⟩
  · refine hloop.mono fun _ t ht => ?_
    obtain ⟨k, hk, hle, hI, hfr⟩ := ht
    have : files.length ≤ k := drop_eq_nil_iff.mp hk
    obtain rfl : k = files.length := by omega
    rw [take_length] at hI
    exact ⟨hI, hfr⟩
  · obtain ⟨k, hk, hle, hI, hfr⟩ := ht
    have hlt : k < files.length := by
      by_contra hge
      rw [drop_eq_nil_iff.mpr (by omega)] at hk
      cases hk
    rw [drop_eq_getElem_cons hlt] at hk
    obtain ⟨rfl, rfl⟩ := List.cons.inj hk
    exact (addFile_spec hf hlt rfl hI hfr).mono fun _ u hu => ⟨k + 1, rfl, hlt, hu.1, hu.2⟩

/-! ## The bitmap -/

theorem bit_marks {n : Nat} (hn : n ≤ 8 * BSIZE) (k : Nat) : (marks n).bit k = decide (k < n) := by
  induction n with
  | zero => simp [marks]
  | succ n ih =>
    have hs : marks (n + 1) = (marks n).setBit n := by
      rw [marks, range_succ, foldl_append]
      rfl
    rw [hs, Bytes.bit_setBit (by omega), ih (by omega), ← Bool.decide_or]
    exact decide_eq_decide.mpr (by omega)

/-! ## The image -/

/-- Everything about the image for `files`.  The size on disk of the root directory is
not that of its entries, and is said apart. -/
structure Made (files : List HostFile) (d : Disk) : Prop where
  boot : d 0 = Bytes.zero BSIZE
  super : Super.ofBlock (d 1) = sb
  free : ∀ i < NINODES, i = 0 ∨ files.length + 2 ≤ i → dinode sb d i = Dinode.zero
  attr : ∀ i, 0 < i → i < files.length + 2 → (dinode sb d i).type = kind i ∧ (dinode sb d i).nlink = 1
  size : ∀ i, ROOTINO < i → i < files.length + 2 →
    (dinode sb d i).size.toNat = (contents files i).length
  rootSize : (dinode sb d ROOTINO).size.toNat = (16 * (files.length + 2) / BSIZE + 1) * BSIZE
  holds : ∀ i, 0 < i → i < files.length + 2 →
    Holds d ((dinode sb d i).setSize (UInt32.ofNat (contents files i).length)) (contents files i)
      (slotsFor (contents files i).length)
  exact : Exact (· < nmeta) FSSIZE (refs NINODES (dinode sb d) d) fun b => used sb d b = true

/-- The image with the superblock and nothing else. -/
def blank : Mk := { zeroes with disk := update zeroes.disk 1 sb.toBlock }

theorem img_blank : Img blank fun _ => [] := by
  have hino : ∀ i < NINODES, dinode sb blank.disk i = Dinode.zero := fun i hi =>
    (dinode_update (Nat.ne_of_gt (iblock_lt hi).1)).trans (getDinode_zero _)
  have hrefs : ∀ a, refs NINODES (dinode sb blank.disk) blank.disk a = 0 := fun a => by
    refine if_neg fun h => h.2 ?_
    rw [hino _ h.1]
    rfl
  have hsuper : blank.disk 1 = sb.toBlock := by
    simp only [blank, update_self]
  have hsum : ∑ i ∈ Finset.range NINODES, slotsFor ([] : List UInt8).length = 0 :=
    Finset.sum_eq_zero fun _ _ => rfl
  refine ⟨⟨⟨?_, ?_, ?_⟩, ?_, by decide, fun i hi _ => hino i hi, ?_, ?_, fun _ _ => ⟨rfl, rfl⟩, ?_⟩,
    rfl, hsuper⟩
  · exact fun a a' _ h => absurd (hrefs a) h
  · exact fun a h => absurd (hrefs a) h
  · refine fun b _ => ⟨.inl, ?_⟩
    rintro (hb | ⟨h0, a, ha⟩)
    · exact hb
    · exact absurd (ha.symm.trans (hrefs a)) h0
  · intro b hb
    have hb' : nmeta ≤ b := hb
    have : nmeta = 46 := by decide
    exact update_of_ne (by omega) ..
  · exact fun i h0 hi => absurd hi (by show ¬ i < 1; omega)
  · exact fun i h0 hi => absurd hi (by show ¬ i < 1; omega)
  · rw [hsum]
    rfl

/-- The last two steps. -/
theorem made_of_img (hf : Fits files) (h : Img s (contents files))
    (hfree : s.freeinode = files.length + 2) :
    Made files (update (setDinode sb s.disk ROOTINO ((dinode sb s.disk ROOTINO).setSize
      (UInt32.ofNat ((16 * (files.length + 2) / BSIZE + 1) * BSIZE)))) sb.bmapstart.toNat
      (marks s.freeblock)) := by
  have hcount : files.length ≤ 198 := hf.count
  have hB := h.built
  have hroot : ROOTINO < NINODES := by decide
  have hfb : s.freeblock ≤ FSSIZE := by rw [hB.count]; exact hf.room
  obtain ⟨x, hx⟩ : ∃ x, (dinode sb s.disk ROOTINO).setSize
      (UInt32.ofNat ((16 * (files.length + 2) / BSIZE + 1) * BSIZE)) = x := ⟨_, rfl⟩
  rw [hx]
  obtain ⟨d, hd⟩ : ∃ d, update (setDinode sb s.disk ROOTINO x) sb.bmapstart.toNat
      (marks s.freeblock) = d := ⟨_, rfl⟩
  rw [hd]
  have hino : ∀ i < NINODES, dinode sb d i = update (dinode sb s.disk) ROOTINO x i :=
    fun i hi => by
      rw [← hd, dinode_update (Nat.ne_of_lt (sb_ok.iblock_lt hi)), dinode_setDinode]
  have hdata : ∀ b, nmeta ≤ b → d b = s.disk b := fun b hb => by
    have h46 : nmeta = 46 := by decide
    have h45 : sb.bmapstart.toNat = 45 := by decide
    rw [← hd, update_of_ne (by omega), setDinode_data sb_ok hroot hb]
  have hlow : ∀ b, b ≤ 1 → d b = s.disk b := fun b hb => by
    have h45 : sb.bmapstart.toNat = 45 := by decide
    rw [← hd, update_of_ne (by omega), setDinode_low hroot hb]
  have hlt : ∀ i, i < files.length + 2 → i < NINODES := fun i hi => by
    simp only [NINODES]; omega
  have hsame : ∀ i < NINODES, (dinode sb d i).setSize 0 = (dinode sb s.disk i).setSize 0 :=
    fun i hi => by
      rw [hino i hi]
      by_cases h1 : i = ROOTINO
      · subst h1; rw [update_self, ← hx]; rfl
      · rw [update_of_ne h1]
  have htype := fun i hi => congrArg Dinode.type (hsame i hi)
  have hnlink := fun i hi => congrArg Dinode.nlink (hsame i hi)
  have haddrs := fun i hi => congrArg Dinode.addrs (hsame i hi)
  simp only [Dinode.setSize] at htype hnlink haddrs
  have hrefs : refs NINODES (dinode sb d) d = refs NINODES (dinode sb s.disk) s.disk := by
    refine refs_congr (fun i hi => by rw [htype i hi]) (fun i hi _ => haddrs i hi)
      fun i hi ht hind => hdata _ ?_
    have hind' : (dinode sb d i).ind = (dinode sb s.disk i).ind := congrFun (haddrs i hi) _
    rw [htype i hi] at ht
    rw [hind'] at hind ⊢
    have hl : s.Live i := (hB.live hi).mp ht
    exact (hB.slot_range hl (((hB.holds i hl.1 hl.2).slots NDIRECT).mp hind)).1
  constructor
  · rw [hlow 0 (by decide), h.boot]
  · rw [hlow 1 (by decide), h.super, Super.ofBlock_toBlock]
  · intro i hi hdead
    rw [hino i hi, update_of_ne (by rintro rfl; simp only [ROOTINO] at hdead; omega)]
    exact hB.free i hi (by rwa [hfree])
  · intro i h0 hi
    rw [htype i (hlt i hi), hnlink i (hlt i hi)]
    exact hB.attr i h0 (by rwa [hfree])
  · intro i h1 hi
    rw [hino i (hlt i hi), update_of_ne (Nat.ne_of_gt h1)]
    exact (hB.holds i (Nat.zero_lt_of_lt h1) (by rwa [hfree])).size
  · rw [hino _ hroot, update_self, ← hx]
    have hsz : UInt32.size = 4294967296 := rfl
    refine UInt32.toNat_ofNat_of_lt' ?_
    simp only [BSIZE]
    omega
  · intro i h0 hi
    have hl : s.Live i := ⟨h0, by rwa [hfree]⟩
    have hH := hB.holds i h0 hl.2
    refine hH.frame (haddrs i (hlt i hi)) ?_ fun k hk => hdata _ (hB.slot_range hl hk).1
    exact UInt32.toNat_inj.mp ((UInt32.toNat_ofNat_of_lt' (hH.size ▸ UInt32.toNat_lt _)).trans
      hH.size.symm)
  · rw [hrefs]
    refine hB.exact.congr fun b hb => ?_
    have hb' : b < 2000 := hb
    have hBB : sb.BBLOCK b = sb.bmapstart.toNat := by
      rw [Super.BBLOCK, Nat.div_eq_of_lt (Nat.lt_trans hb' (by decide)), Nat.zero_add]
    rw [used, ← hd, hBB, update_self, bit_marks (Nat.le_trans hfb (by decide)),
      Nat.mod_eq_of_lt (Nat.lt_trans hb' (by decide)), decide_eq_true_eq]

theorem image_spec (hf : Fits files) : ∃ d, image files = .ok d ∧ Made files d := by
  suffices hmain : Succeeds (main files) zeroes fun _ t => Made files t.disk by
    obtain ⟨_, t, hm, hM⟩ := hmain
    refine ⟨t.disk, ?_, hM⟩
    have hrun : (main files).run zeroes = .ok (_, t) := hm
    rw [image, hrun]
    rfl
  have hroom : ∀ {c : Nat → List UInt8}, (∀ i, (c i).length ≤ (contents files i).length) → Room c :=
    hf.room.mono
  have hdir : ∀ l : List UInt8, l.length ≤ 32 → ∀ i, (update (fun _ => []) ROOTINO l i).length
      ≤ (contents files i).length := fun l hl i => by
    by_cases h1 : i = ROOTINO
    · subst h1; rw [update_self, length_root]; omega
    · rw [update_of_ne h1]; exact Nat.zero_le _
  refine Succeeds.write ?_
  refine (ialloc_spec img_blank (by decide) rfl).seq fun r t ht => ?_
  obtain ⟨hr, hI, hfree⟩ := ht
  obtain rfl : r = ROOTINO := hr
  refine Succeeds.bind ?_
  refine Succeeds.pure ?_
  have hl : t.Live ROOTINO := ⟨by decide, by rw [hfree]; decide⟩
  refine (iappend_spec hI hl (by rw [Dirent.length_bytes]; decide)
    (hroom (hdir _ (by rw [nil_append, Dirent.length_bytes]; decide)))).seq fun _ u hu => ?_
  obtain ⟨hI', hfree'⟩ := hu
  have hl' : u.Live ROOTINO := ⟨by decide, by rw [hfree', hfree]; decide⟩
  refine (iappend_spec hI' hl' ?_ ?_).seq fun _ v hv => ?_
  · rw [update_self, nil_append, Dirent.length_bytes, Dirent.length_bytes]; decide
  · rw [update_idem, update_self, nil_append]
    refine hroom (hdir _ ?_)
    rw [length_append, Dirent.length_bytes, Dirent.length_bytes]
  · obtain ⟨hI'', hfree''⟩ := hv
    have hc : update (update (fun _ : Nat => ([] : List UInt8)) ROOTINO
        ([] ++ Dirent.bytes ⟨UInt16.ofNat ROOTINO, dot⟩)) ROOTINO (update (fun _ => [])
        ROOTINO ([] ++ Dirent.bytes ⟨UInt16.ofNat ROOTINO, dot⟩) ROOTINO
        ++ Dirent.bytes ⟨UInt16.ofNat ROOTINO, dotdot⟩) = contents [] := by
      rw [update_idem, update_self]
      funext i
      by_cases h1 : i = ROOTINO
      · subst h1; rw [update_self]; rfl
      · rw [update_of_ne h1, contents_dead]
        simp only [ROOTINO] at h1
        rw [length_nil]
        omega
    have hI0 : Img v (contents []) := hc ▸ hI''
    refine (addFiles_spec hf hI0 (by rw [hfree'', hfree', hfree]; rfl)).seq fun _ w hw => ?_
    obtain ⟨hI1, hfree1⟩ := hw
    have hl1 : w.Live ROOTINO := ⟨by decide, by rw [hfree1]; simp only [ROOTINO]; omega⟩
    refine Succeeds.bind (rinode_spec (by decide) ?_)
    rw [(hI1.built.holds ROOTINO hl1.1 hl1.2).size, length_root]
    refine Succeeds.bind (winode_spec (by decide) (Succeeds.read ?_))
    have hfb : w.freeblock ≤ FSSIZE := by rw [hI1.built.count]; exact hf.room
    refine Succeeds.bind ?_
    rw [assert, if_pos (Nat.lt_of_le_of_lt hfb (by decide))]
    exact Succeeds.pure (Succeeds.update (made_of_img hf hI1 hfree1))

/-! ## Entries of the root directory -/

theorem getD_flatMap_bytes {j : Nat} (hj : j < 16) : ∀ (es : List Dirent) (k : Nat),
    (es.flatMap Dirent.bytes).getD (16 * k + j) 0
      = ((es[k]?).map fun e => e.bytes.getD j 0).getD 0
  | [], k => by simp
  | e :: es, 0 => by
    rw [flatMap_cons, getD_append _ _ _ _ (by rw [Dirent.length_bytes]; omega)]
    simp
  | e :: es, k + 1 => by
    rw [flatMap_cons, getD_append_right _ _ _ _ (by rw [Dirent.length_bytes]; omega),
      Dirent.length_bytes, show 16 * (k + 1) + j - 16 = 16 * k + j by omega, getD_flatMap_bytes hj es k]
    rfl

/-- A byte of the root directory; there are zeros behind its entries. -/
theorem Made.root_byte (h : Made files d) (m : Nat) :
    byteAt d (dinode sb d ROOTINO) m = (contents files ROOTINO).getD m 0 := by
  have hH := h.holds ROOTINO (by decide) (by simp only [ROOTINO]; omega)
  have hb : byteAt d (dinode sb d ROOTINO) m = byteAt d ((dinode sb d ROOTINO).setSize
      (UInt32.ofNat (contents files ROOTINO).length)) m := by
    simp only [byteAt, blockAt, slot_congr (x := dinode sb d ROOTINO) (y := (dinode sb d
      ROOTINO).setSize (UInt32.ofNat (contents files ROOTINO).length)) rfl (fun _ => rfl)]
  rw [hb]
  by_cases hm : slotOf (m / BSIZE) < slotsFor (contents files ROOTINO).length
  · exact hH.bytes m hm
  · -- no block: address 0, the boot block
    have h0 : blockAt d ((dinode sb d ROOTINO).setSize
        (UInt32.ofNat (contents files ROOTINO).length)) (m / BSIZE) = 0 := by
      by_contra hne
      exact hm ((hH.slots _).mp hne)
    have hlen : (contents files ROOTINO).length ≤ m := by
      by_contra hlt
      exact hm (hH.room m (by omega))
    rw [byteAt, h0, getD_eq_default _ _ hlen]
    show (d 0).byte _ = 0
    rw [h.boot, Bytes.byte_zero]

theorem Made.root_entry (h : Made files d) (k : Nat) : entryAt d (dinode sb d ROOTINO) k
      = Dirent.ofBytes (((rootEntries files)[k]?.map Dirent.bytes).getD (List.replicate 16 0)) := by
  rw [entryAt]
  congr 1
  refine ext_getElem ?_ fun j hj hj2 => ?_
  · cases (rootEntries files)[k]? with
    | none => simp
    | some e => simp
  · have hj' : j < 16 := by simpa using hj
    rw [getElem_map, getElem_range, h.root_byte, contents, if_pos rfl,
      getD_flatMap_bytes hj', ← getD_eq_getElem _ 0 hj2]
    cases (rootEntries files)[k]? with
    | none =>
      show 0 = (List.replicate 16 0).getD j 0
      rw [getD_eq_getElem _ _ (by rwa [length_replicate]), getElem_replicate]
    | some e => rfl

theorem rootEntries_inum {e : Dirent} (he : (rootEntries files)[k]? = some e)
    (hn : files.length ≤ 198) : ∃ i, 0 < i ∧ i < files.length + 2 ∧ e.inum = UInt16.ofNat i := by
  have hk : k < files.length + 2 := by
    have := (List.getElem?_eq_some_iff.mp he).1
    rwa [length_rootEntries] at this
  rcases k with _ | _ | k
  · obtain rfl : _ = e := by simpa [rootEntries] using he
    exact ⟨1, by decide, by omega, rfl⟩
  · obtain rfl : _ = e := by simpa [rootEntries] using he
    exact ⟨1, by decide, by omega, rfl⟩
  · have hlt : k < files.length := by omega
    have : (rootEntries files)[k + 2]? = some ⟨UInt16.ofNat (k + 2), files[k].short⟩ := by
      simp [rootEntries, List.getElem?_mapIdx, List.getElem?_eq_getElem hlt]
    rw [this] at he
    cases he
    exact ⟨k + 2, by omega, by omega, rfl⟩

/-! ## Consistency -/

/-- What the kernel relies on in an image: every block of a file below its size is
there; references, bitmap and metadata agree; the entries of the root directory name
allocated inodes with one link. -/
structure Consistent (sb : Super) (d : Disk) : Prop where
  noHoles : ∀ i < sb.ninodes.toNat, ∀ n < ((dinode sb d i).size.toNat + BSIZE - 1) / BSIZE,
    blockAt d (dinode sb d i) n ≠ 0
  exact : Exact (· < sb.nmeta) sb.size.toNat (refs sb.ninodes.toNat (dinode sb d) d)
    fun b => used sb d b = true
  root : ∀ k, 16 * k < (dinode sb d ROOTINO).size.toNat →
    (entryAt d (dinode sb d ROOTINO) k).inum ≠ 0 →
      (dinode sb d (entryAt d (dinode sb d ROOTINO) k).inum.toNat).type ≠ 0 ∧
      (dinode sb d (entryAt d (dinode sb d ROOTINO) k).inum.toNat).nlink = 1

theorem slotOf_lt_slotsFor {n len : Nat} : slotOf n < slotsFor len ↔ n * BSIZE < len := by
  have hB : BSIZE = 1024 := rfl
  unfold slotsFor
  split
  · omega
  · constructor
    · intro h
      have : n ≤ (len - 1) / BSIZE := by
        by_contra hlt
        have := slotOf_mono (Nat.le_of_lt (Nat.lt_of_not_le hlt))
        have : slotOf n ≠ slotOf ((len - 1) / BSIZE) := fun he => hlt (Nat.le_of_eq (slotOf_inj he))
        omega
      rw [hB] at this ⊢
      omega
    · intro h
      have : n ≤ (len - 1) / BSIZE := by rw [hB] at h ⊢; omega
      exact Nat.lt_succ_of_le (slotOf_mono this)

theorem Made.block_ne (h : Made files d) {i n : Nat} (h0 : 0 < i) (hi : i < files.length + 2) :
    blockAt d (dinode sb d i) n ≠ 0 ↔ n * BSIZE < (contents files i).length := by
  rw [← slotOf_lt_slotsFor, ← (h.holds i h0 hi).slots]
  exact Iff.rfl

theorem Made.consistent_iff (h : Made files d) (hn : files.length ≤ 198) :
    Consistent sb d ↔ (files.length + 2) % 64 ≠ 0 := by
  have hB : BSIZE = 1024 := rfl
  constructor
  · intro hc h64
    -- the block the size ends in is not there
    have hle : 16 * (files.length + 2) / BSIZE
        < ((dinode sb d ROOTINO).size.toNat + BSIZE - 1) / BSIZE := by
      rw [h.rootSize, hB]
      omega
    have := (h.block_ne (by decide) (by simp only [ROOTINO]; omega)).mp
      (hc.noHoles ROOTINO (by decide) _ hle)
    rw [length_root, hB] at this
    omega
  · intro h64
    refine ⟨fun i hi n hn' => ?_, h.exact, fun k _ hk => ?_⟩
    · by_cases hl : 0 < i ∧ i < files.length + 2
      · rw [h.block_ne hl.1 hl.2]
        by_cases h1 : i = ROOTINO
        · subst h1
          rw [h.rootSize] at hn'
          rw [length_root]
          rw [hB] at hn' ⊢
          omega
        · have hlt : ROOTINO < i := by simp only [ROOTINO] at h1 ⊢; omega
          rw [h.size i hlt hl.2] at hn'
          rw [hB] at hn' ⊢
          omega
      · rw [h.free i hi (by omega)] at hn'
        exact absurd hn' (Nat.not_lt_zero n)
    · rw [h.root_entry] at hk ⊢
      cases he : (rootEntries files)[k]? with
      | none =>
        rw [he] at hk
        exact absurd (by decide) hk
      | some e =>
        obtain ⟨i, h0, hi, hei⟩ := rootEntries_inum he hn
        have hn : (Dirent.ofBytes e.bytes).inum.toNat = i := by
          rw [Dirent.inum_ofBytes_bytes, hei]
          exact UInt16.toNat_ofNat_of_lt' (show i < 65536 by omega)
        rw [Option.map_some, Option.getD_some, hn, (h.attr i h0 hi).1]
        exact ⟨kind_ne_zero i, (h.attr i h0 hi).2⟩

/-- On input that fits, `mkfs` succeeds, and its image is consistent exactly when the
entries of the root directory do not fill its last block. -/
theorem mkfs_consistent (files : List HostFile) (hf : Fits files) :
    ∃ d, image files = .ok d ∧
      (Consistent (Super.ofBlock (d 1)) d ↔ (files.length + 2) % 64 ≠ 0) := by
  obtain ⟨d, hd, hM⟩ := image_spec hf
  exact ⟨d, hd, by rw [hM.super]; exact hM.consistent_iff hf.count⟩

/-- One file, `_cat`, of three bytes. -/
theorem mkfs_consistent_cat :
    Fits [⟨[95, 99, 97, 116], [1, 2, 3]⟩] ∧ ∃ d, image [⟨[95, 99, 97, 116], [1, 2, 3]⟩] = .ok d ∧
      Consistent (Super.ofBlock (d 1)) d := by
  have hf : Fits [⟨[95, 99, 97, 116], [1, 2, 3]⟩] :=
    ⟨by decide, by decide, by decide, by decide, by decide⟩
  obtain ⟨d, hd, hc⟩ := mkfs_consistent _ hf
  exact ⟨hf, d, hd, hc.mpr (by decide)⟩

/-- `n` empty files `f00`, `f01`, .. -/
def emptyFiles (n : Nat) : List HostFile :=
  (List.range n).map fun k => ⟨[102, UInt8.ofNat (48 + k / 10), UInt8.ofNat (48 + k % 10)], []⟩

/-- With 62 input files the root directory has 64 entries and a size of two blocks, and
has no second block. -/
theorem mkfs_hole : ∃ files d, Fits files ∧ image files = .ok d ∧
    ¬ Consistent (Super.ofBlock (d 1)) d := by
  have hf : Fits (emptyFiles 62) :=
    ⟨by decide +kernel, by decide +kernel, by decide, by decide +kernel, by decide +kernel⟩
  obtain ⟨d, hd, hM⟩ := image_spec hf
  refine ⟨_, d, hf, hd, ?_⟩
  rw [hM.super, hM.consistent_iff (by decide)]
  decide

end

end Xv6.Fs.Mkfs
