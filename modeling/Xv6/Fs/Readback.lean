/-
# `Xv6.Fs.Readback` — the kernel reads what `mkfs` wrote

`namex`, `ilock` and `readi` on the image of `mkfs`: the entry of the root directory for
an input file is found, the inode it names is a file of the right length, and reading it
gives the bytes of the input file.

Three names do not come back.  A file whose name is empty is never looked up, and one
called `.` or `..` is hidden by the entries `mkfs` makes itself: all three paths lead to
the root directory.

**Proved here.**

  * every other input file is read back (`mkfs_readback`)
  * the three names (`mkfs_dot_hidden`)
-/
import Mathlib.Data.List.TakeWhile
import Xv6.Fs.MkfsImage
import Xv6.Fs.Read

namespace Xv6.Fs.Mkfs

open Machine Function List

/-! ## Names -/

theorem elems_slash {name : Name} (h0 : name ≠ []) (hs : SLASH ∉ name) (hl : name.length ≤ DIRSIZ) :
    elems (SLASH :: name) = [(name, [])] := by
  have hne : ∀ c ∈ name, (c != SLASH) = true := fun c hc => by
    have : c ≠ SLASH := by rintro rfl; exact hs hc
    simpa using this
  have hdrop : name.dropWhile (· == SLASH) = name := by
    cases name with
    | nil => rfl
    | cons c cs =>
      have := hne c (mem_cons_self ..)
      simpa using this
  have htake : name.takeWhile (· != SLASH) = name := takeWhile_eq_self_iff.mpr hne
  have hrest : name.dropWhile (· != SLASH) = [] := dropWhile_eq_nil_iff.mpr hne
  have hskip : skipelem (SLASH :: name) = some (name, []) := by
    have : (SLASH :: name).dropWhile (· == SLASH) = name := by
      rw [dropWhile_cons_of_pos (by simp), hdrop]
    have hemp : name.isEmpty = false := by simpa using h0
    simp only [skipelem, this, hemp, Bool.false_eq_true, if_false, htake, hrest,
      take_of_length_le hl, dropWhile_nil]
  rw [elems_eq, hskip]
  rfl

theorem shortname_some {arg : List UInt8} {short : Name} (h : shortname arg = some short) :
    SLASH ∉ short ∧ short.length ≤ DIRSIZ ∧ ∀ c ∈ short, c ∈ arg := by
  unfold shortname at h
  dsimp only at h
  obtain ⟨l, hl⟩ : ∃ l, (if userSlash.isPrefixOf arg then arg.drop 5 else arg) = l := ⟨_, rfl⟩
  have hsub : ∀ c ∈ l, c ∈ arg := by
    intro c hc
    rw [← hl] at hc
    split at hc
    · exact mem_of_mem_drop hc
    · exact hc
  rw [hl] at h
  split at h
  · cases h
  · next hslash =>
      obtain ⟨m, hm⟩ : ∃ m, (if l.head? = some UNDERSCORE then l.tail else l) = m := ⟨_, rfl⟩
      have hsub' : ∀ c ∈ m, c ∈ l := by
        intro c hc
        rw [← hm] at hc
        split at hc
        · exact mem_of_mem_tail hc
        · exact hc
      rw [hm] at h
      split_ifs at h with hlen
      cases h
      exact ⟨fun hc => hslash (hsub' _ hc), hlen, fun c hc => hsub c (hsub' c hc)⟩

/-- Input that fits, with names that are strings. -/
structure Named (files : List HostFile) : Prop extends Fits files where
  strings : ∀ f ∈ files, (0 : UInt8) ∉ f.arg

section
variable {files : List HostFile} {f : HostFile} {d : Disk} {j k : Nat} {name : Name} {e : Dirent}
  {ip : Ptr} {i : Nat}

theorem Fits.short (h : Fits files) (hf : f ∈ files) :
    SLASH ∉ f.short ∧ f.short.length ≤ DIRSIZ ∧ ∀ c ∈ f.short, c ∈ f.arg := by
  obtain ⟨short, hs⟩ := Option.isSome_iff_exists.mp (h.names f hf)
  have : f.short = short := by rw [HostFile.short, hs]; rfl
  rw [this]
  exact shortname_some hs

/-! ## The root directory -/

theorem Made.root_max (h : Made files d) (hn : Fits files) :
    (dinode sb d ROOTINO).size.toNat ≤ MAXFILE * BSIZE := by
  have : files.length ≤ 198 := hn.count
  rw [h.rootSize]
  simp only [MAXFILE, NDIRECT, NINDIRECT, BSIZE]
  omega

theorem Made.root_type (h : Made files d) : (dinode sb d ROOTINO).type = T_DIR :=
  (h.attr ROOTINO (by decide) (by simp only [ROOTINO]; omega)).1

theorem Made.root_readable (h : Made files d) (hj : j < files.length + 2) :
    Readable d (dinode sb d ROOTINO) j := by
  have hB : BSIZE = 1024 := rfl
  refine ⟨?_, ?_⟩
  · rw [h.rootSize, hB]
    omega
  · rw [h.block_ne (by decide) (by simp only [ROOTINO]; omega), length_root, hB]
    omega

theorem rootEntries_file (hk : k < files.length) :
    (rootEntries files)[k + 2]? = some ⟨UInt16.ofNat (k + 2), files[k].short⟩ := by
  simp [rootEntries, List.getElem?_mapIdx, List.getElem?_eq_getElem hk]

theorem Named.entry_name (h : Named files) (he : (rootEntries files)[j]? = some e) :
    (0 : UInt8) ∉ e.name ∧ e.name.length ≤ DIRSIZ := by
  have hj : j < files.length + 2 := by
    have := (List.getElem?_eq_some_iff.mp he).1
    rwa [length_rootEntries] at this
  rcases j with _ | _ | j
  · obtain rfl : _ = e := by simpa [rootEntries] using he
    exact ⟨by decide, by decide⟩
  · obtain rfl : _ = e := by simpa [rootEntries] using he
    exact ⟨by decide, by decide⟩
  · have hj' : j < files.length := by omega
    rw [rootEntries_file hj'] at he
    cases he
    have hmem : files[j] ∈ files := getElem_mem hj'
    exact ⟨fun h0 => h.strings _ hmem ((h.toFits.short hmem).2.2 0 h0), (h.toFits.short hmem).2.1⟩

/-- The entries come back as they were written. -/
theorem Made.root_entry_eq (h : Made files d) (hn : Named files)
    (he : (rootEntries files)[j]? = some e) : entryAt d (dinode sb d ROOTINO) j = e := by
  obtain ⟨h0, hl⟩ := hn.entry_name he
  rw [h.root_entry, he, Option.map_some, Option.getD_some, Dirent.ofBytes_bytes h0 hl]

theorem Made.isEntry_iff (h : Made files d) (hn : Named files)
    (he : (rootEntries files)[j]? = some e) :
    isEntry d (dinode sb d ROOTINO) name j = true ↔ name = e.name := by
  obtain ⟨i, h0, hi, hei⟩ := rootEntries_inum he hn.count
  have hlt : files.length ≤ 198 := hn.count
  have hne : e.inum ≠ 0 := by
    rw [hei]
    intro h0'
    have := congrArg UInt16.toNat h0'
    rw [UInt16.toNat_ofNat_of_lt' (show i < 65536 by omega)] at this
    exact absurd this (by show i ≠ 0; omega)
  simp [isEntry, inUse, h.root_entry_eq hn he, hne]

/-! ## Lookup -/

/-- The tables with the root directory locked, after `iget` and `ilock`. -/
def rootLocked (d : Disk) : Sys :=
  (boot d).setInode 0 ⟨ROOTINO, 2, true, true, dinode sb d ROOTINO⟩

theorem root_ilock (h : Made files d) (p : ProcPtr) :
    (ilock sb 0).eval (fsOp p) ((boot d).addRef 0) = .ok ((), rootLocked d) := by
  have ht : (dinode sb d ROOTINO).type ≠ 0 := by
    rw [h.root_type]
    decide
  have hi : ((boot d).addRef 0).itable 0 = ⟨ROOTINO, 2, false, false, Dinode.zero⟩ := by
    simp [Sys.addRef, boot]
  have hd : ((boot d).addRef 0).disk = d := rfl
  rw [ilock_eval_invalid (by rw [hi]; exact Nat.two_pos) (by rw [hi]) (by rw [hi])
    (by rwa [hi, hd]), hi, hd]
  simp [rootLocked, Sys.addRef, Sys.setInode]

/-- `iget` of the root directory, when it is all there is in the table. -/
theorem iget_root {s : Sys} (p : ProcPtr) (h0 : 0 < (s.itable 0).ref) (hi : (s.itable 0).inum = ROOTINO)
    (hrest : ∀ ip : Ptr, ip ≠ 0 → (s.itable ip).ref = 0) :
    (Mem.iget ROOTINO).eval (fsOp p) s = .ok (0, s.addRef 0) := by
  refine eval_iget_cached ?_
  cases hc : s.cached ROOTINO with
  | none => exact absurd hi (Sys.cached_none hc 0 h0)
  | some ip =>
    by_cases hip : ip = 0
    · rw [hip]
    · have := (Sys.cached_some hc).1
      rw [hrest ip hip] at this
      exact absurd this (Nat.lt_irrefl 0)

theorem rootLocked_zero :
    (rootLocked d).itable 0 = ⟨ROOTINO, 2, true, true, dinode sb d ROOTINO⟩ := by
  simp [rootLocked]

theorem rootLocked_ne (h0 : ip ≠ 0) :
    (rootLocked d).itable ip = ⟨0, 0, false, false, Dinode.zero⟩ := by
  simp [rootLocked, boot, h0]

/-- The lookup of a name that entry `j` has, and none before it. -/
theorem root_dirlookup (h : Made files d) (hn : Named files) (p : ProcPtr)
    (he : (rootEntries files)[j]? = some e) (hname : name = e.name)
    (hfirst : ∀ i < j, ∀ e', (rootEntries files)[i]? = some e' → name ≠ e'.name) :
    (dirlookup sb 0 name).eval (fsOp p) (rootLocked d)
      = ((Mem.iget e.inum.toNat).eval (fsOp p) (rootLocked d)).bind fun a =>
          .ok (some (a.1, j), a.2) := by
  have hx : ((rootLocked d).itable 0).din = dinode sb d ROOTINO := rfl
  have hj : j < files.length + 2 := by
    have := (List.getElem?_eq_some_iff.mp he).1
    rwa [length_rootEntries] at this
  have hB : BSIZE = 1024 := rfl
  have hent : j < nentries (dinode sb d ROOTINO) := by
    have hs := h.rootSize
    rw [nentries, hs, hB]
    omega
  have htype : ¬ (dinode sb d ROOTINO).type ≠ T_DIR := not_not.mpr h.root_type
  have hsplit : List.range (nentries (dinode sb d ROOTINO)) = List.range j ++
      j :: (List.range (nentries (dinode sb d ROOTINO) - (j + 1))).map (j + 1 + ·) := by
    obtain ⟨m, hm⟩ : ∃ m, nentries (dinode sb d ROOTINO) = j + 1 + m :=
      ⟨nentries (dinode sb d ROOTINO) - (j + 1), by omega⟩
    rw [hm, range_add, range_succ, append_assoc, Nat.add_sub_cancel_left]
    rfl
  have hread : ∀ i < j + 1, Readable (rootLocked d).disk (dinode sb d ROOTINO) i := fun i hi =>
    h.root_readable (by omega)
  have hskip : ∀ i ∈ List.range j,
      isEntry (rootLocked d).disk (dinode sb d ROOTINO) name i = false := by
    intro i hi
    have hi := mem_range.mp hi
    obtain ⟨e', he'⟩ : ∃ e', (rootEntries files)[i]? = some e' :=
      ⟨_, List.getElem?_eq_getElem (by rw [length_rootEntries]; omega)⟩
    rw [← Bool.not_eq_true]
    exact fun ht => hfirst i hi e' he' ((h.isEntry_iff hn he').mp ht)
  have hhere : isEntry (rootLocked d).disk (dinode sb d ROOTINO) name j = true :=
    (h.isEntry_iff hn he).mpr hname
  have hent' : entryAt (rootLocked d).disk (dinode sb d ROOTINO) j = e := h.root_entry_eq hn he
  rw [dirlookup]
  simp only [Prog.bind_def, Prog.eval_bind, eval_din, Except.bind, hx, if_neg htype]
  rw [hsplit, dirlookupFrom_skip hx (h.root_max hn.toFits)
    (fun i hi => hread i (by have := mem_range.mp hi; omega)) hskip,
    dirlookupFrom_cons hx (h.root_max hn.toFits) (hread j (by omega)), if_pos hhere, hent']
  rfl

/-! ## Read back -/

/-- `namex` on a path of one element that the root directory has. -/
theorem namex_root (h : Made files d) (p : ProcPtr) (hs : elems (SLASH :: name) = [(name, [])])
    {t : Sys} (hl : (dirlookup sb 0 name).eval (fsOp p) (rootLocked d) = .ok (some (ip, j), t))
    (hlock : (t.itable 0).locked = true) (href : 2 ≤ (t.itable 0).ref) :
    (onBlocks sb (namex (SLASH :: name) false)).eval (fsOp p) (boot d)
      = .ok (some (ip, []), (t.setLocked 0 false).dropRef 0) := by
  have htype : ((rootLocked d).itable 0).din.type = T_DIR := h.root_type
  have hhead : (SLASH :: name).head? = some SLASH := rfl
  have hget := iget_root (s := boot d) p Nat.one_pos rfl fun ip h0 => if_neg h0
  rw [eval_onBlocks, namex, if_pos hhead, hs]
  simp only [Prog.bind_def, Prog.eval_bind, eval_ino_igetRoot, hget, Except.bind, namexFrom,
    eval_ino_ilock, root_ilock h, eval_ino_type, htype]
  simp only [ne_eq, not_true_eq_false, if_false, Bool.false_eq_true, false_and, Prog.eval_bind,
    eval_ino_dirlookup, hl, Except.bind, eval_iunlockput hlock href]
  rfl

/-- `iget` of an inode other than the root. -/
theorem iget_other (p : ProcPtr) (hi : i ≠ ROOTINO) : ∃ ip : Ptr, ip ≠ 0 ∧
    (Mem.iget i).eval (fsOp p) (rootLocked d)
      = .ok (ip, (rootLocked d).setInode ip ⟨i, 1, false, false, Dinode.zero⟩) := by
  have hc : (rootLocked d).cached i = none := by
    refine Sys.cached_eq_none fun ip hr => ?_
    by_cases h0 : ip = 0
    · rw [h0, rootLocked_zero]
      exact hi.symm
    · rw [rootLocked_ne h0] at hr
      exact absurd hr (Nat.lt_irrefl 0)
  have hone : ((rootLocked d).itable 1).ref = 0 := by rw [rootLocked_ne (by decide)]
  obtain ⟨ip, he⟩ := Sys.exists_empty hone
  have h0 : ip ≠ 0 := by
    rintro rfl
    have := Sys.empty_some he
    cases this
  refine ⟨ip, h0, ?_⟩
  rw [eval_iget_empty hc he, rootLocked_ne h0]

theorem Made.file_byte (h : Made files d) {m : Nat} (h0 : 0 < i) (hi : i < files.length + 2)
    (hm : m < (contents files i).length) :
    byteAt d (dinode sb d i) m = (contents files i).getD m 0 := by
  have hH := h.holds i h0 hi
  rw [← hH.bytes m (hH.room m hm)]
  simp only [byteAt, blockAt, slot_congr (x := dinode sb d i) (y := (dinode sb d i).setSize
    (UInt32.ofNat (contents files i).length)) rfl (fun _ => rfl)]

/-- `readi` on the image, of an inode whose size is that of its contents. -/
theorem Made.readi_eval (h : Made files d) {u : Sys} (p : ProcPtr) (ip : Ptr) (off n : UInt32)
    (h0 : 0 < i) (hi : i < files.length + 2) (hd : u.disk = d)
    (hx : (u.itable ip).din = dinode sb d i)
    (hsize : (dinode sb d i).size.toNat = (contents files i).length)
    (hmax : (contents files i).length ≤ MAXFILE * BSIZE) :
    (readi sb ip none off n).eval (fsOp p) u
      = .ok (((window (contents files i) off.toNat n.toNat).length,
          window (contents files i) off.toNat n.toNat), u) := by
  have hB : BSIZE = 1024 := rfl
  have hle : off.toNat + readLen (dinode sb d i) off n ≤ (contents files i).length
      ∨ readLen (dinode sb d i) off n = 0 := by
    unfold readLen
    split <;> omega
  rw [readi_kernel_eval sb p off n hx (by rw [hsize]; exact hmax) fun m hm hm' => by
    rw [hd, h.block_ne h0 hi, hB]
    omega, hd, ← bytesAt_window hsize fun m hm => ?_, length_bytesAt]
  rw [h.file_byte h0 hi hm, getD_eq_getElem _ _ hm]

/-- Every input file with a name of its own is read back, in every run of `namex` on the
image: the inode it finds is a file of the right length, and `readi` gives its bytes. -/
theorem mkfs_readback (files : List HostFile) (hf : Named files) :
    ∃ d, image files = .ok d ∧ ∀ f ∈ files, f.short ≠ [] → f.short ≠ dot → f.short ≠ dotdot →
      ∀ p, ∃ ip t u,
      (onBlocks (Super.ofBlock (d 1)) (namex (SLASH :: f.short) false)).eval (fsOp p) (boot d)
        = .ok (some (ip, []), t) ∧
      (ilock (Super.ofBlock (d 1)) ip).eval (fsOp p) t = .ok ((), u) ∧
      (u.itable ip).din.type = T_FILE ∧ (u.itable ip).din.size.toNat = f.bytes.length ∧
      ∀ off n : UInt32, (readi (Super.ofBlock (d 1)) ip none off n).eval (fsOp p) u
        = .ok (((window f.bytes off.toNat n.toNat).length, window f.bytes off.toNat n.toNat), u) := by
  obtain ⟨d, hd, hM⟩ := image_spec hf.toFits
  refine ⟨d, hd, fun f hmem hne hdot hdotdot p => ?_⟩
  rw [hM.super]
  obtain ⟨k, hk, rfl⟩ := getElem_of_mem hmem
  have hcount : files.length ≤ 198 := hf.count
  obtain ⟨hslash, hlen, -⟩ := hf.toFits.short hmem
  have hs := elems_slash hne hslash hlen
  -- the entry is the first of its name
  have hfirst : ∀ i < k + 2, ∀ e', (rootEntries files)[i]? = some e' → files[k].short ≠ e'.name := by
    intro i hi e' he'
    rcases i with _ | _ | i
    · obtain rfl : _ = e' := by simpa [rootEntries] using he'
      exact hdot
    · obtain rfl : _ = e' := by simpa [rootEntries] using he'
      exact hdotdot
    · rw [rootEntries_file (show i < files.length by omega)] at he'
      cases he'
      intro heq
      have hk' : k < (files.map HostFile.short).length := by rwa [length_map]
      have hmap : (files.map HostFile.short)[k] = (files.map HostFile.short)[i] := by simpa using heq
      have := hf.distinct.getElem_inj_iff.mp hmap
      omega
  have hlook := root_dirlookup hM hf p (rootEntries_file hk) rfl hfirst
  have hi : (UInt16.ofNat (k + 2)).toNat = k + 2 :=
    UInt16.toNat_ofNat_of_lt' (show k + 2 < 65536 by omega)
  rw [hi] at hlook
  obtain ⟨ip, h0, hget⟩ := iget_other p (show k + 2 ≠ ROOTINO by simp only [ROOTINO]; omega)
  rw [hget] at hlook
  have hzero : ((rootLocked d).setInode ip ⟨k + 2, 1, false, false, Dinode.zero⟩).itable 0
      = ⟨ROOTINO, 2, true, true, dinode sb d ROOTINO⟩ := by
    rw [Sys.itable_setInode, update_of_ne h0.symm, rootLocked_zero]
  have hnamex := namex_root hM p hs hlook (by rw [hzero]) (by rw [hzero])
  obtain ⟨t, ht⟩ : ∃ t, ((((rootLocked d).setInode ip ⟨k + 2, 1, false, false,
      Dinode.zero⟩).setLocked 0 false).dropRef 0) = t := ⟨_, rfl⟩
  rw [ht] at hnamex
  have htip : t.itable ip = ⟨k + 2, 1, false, false, Dinode.zero⟩ := by
    rw [← ht]
    simp [Sys.dropRef, Sys.setLocked, update_of_ne h0]
  have htd : t.disk = d := by rw [← ht]; rfl
  have h2 : 0 < k + 2 := by omega
  have hlt : k + 2 < files.length + 2 := by omega
  have htype : (dinode sb d (k + 2)).type = T_FILE := by
    rw [(hM.attr _ h2 hlt).1, kind, if_neg (by simp only [ROOTINO]; omega)]
  have hsize : (dinode sb d (k + 2)).size.toNat = files[k].bytes.length := by
    rw [hM.size _ (by simp only [ROOTINO]; omega) hlt, contents_file hk]
  have hilock : (ilock sb ip).eval (fsOp p) t = _ := ilock_eval_invalid
    (by rw [htip]; exact Nat.one_pos) (by rw [htip]) (by rw [htip]) (by rw [htip, htd, htype]; decide)
  rw [htip, htd] at hilock
  refine ⟨ip, t, _, hnamex, hilock, ?_, ?_, fun off n => ?_⟩
  · rwa [Sys.itable_setInode, update_self]
  · rwa [Sys.itable_setInode, update_self]
  · have hc := contents_file hk
    have hread := hM.readi_eval p ip off n h2 hlt
      (u := t.setInode ip ⟨k + 2, 1, true, true, dinode sb d (k + 2)⟩) htd
      (by rw [Sys.itable_setInode, update_self]) (by rwa [hc])
      (by rw [hc]; exact hf.sizes _ hmem)
    rwa [hc] at hread

/-- One file, `_cat`, of three bytes. -/
theorem mkfs_readback_cat : ∃ d, image [⟨[95, 99, 97, 116], [1, 2, 3]⟩] = .ok d ∧ ∃ ip t u,
    (onBlocks (Super.ofBlock (d 1)) (namex [47, 99, 97, 116] false)).eval (fsOp 0) (boot d)
      = .ok (some (ip, []), t) ∧
    (ilock (Super.ofBlock (d 1)) ip).eval (fsOp 0) t = .ok ((), u) ∧
    (readi (Super.ofBlock (d 1)) ip none 1 8).eval (fsOp 0) u = .ok ((2, [2, 3]), u) := by
  have hf : Fits [⟨[95, 99, 97, 116], [1, 2, 3]⟩] :=
    ⟨by decide, by decide, by decide, by decide, by decide⟩
  obtain ⟨d, hd, h⟩ := mkfs_readback _ ⟨hf, by decide⟩
  obtain ⟨ip, t, u, hn, hl, -, -, hr⟩ :=
    h _ (mem_singleton_self _) (by decide) (by decide) (by decide) 0
  exact ⟨d, hd, ip, t, u, hn, hl, hr 1 8⟩

/-- A path to an entry of the root directory for itself. -/
theorem namex_root_self (h : Made files d) (hn : Named files) (p : ProcPtr)
    (hs : elems (SLASH :: name) = [(name, [])])
    (he : (rootEntries files)[j]? = some ⟨UInt16.ofNat ROOTINO, name⟩)
    (hfirst : ∀ i < j, ∀ e', (rootEntries files)[i]? = some e' → name ≠ e'.name) : ∃ ip t u,
      (onBlocks sb (namex (SLASH :: name) false)).eval (fsOp p) (boot d) = .ok (some (ip, []), t) ∧
      (ilock sb ip).eval (fsOp p) t = .ok ((), u) ∧ (u.itable ip).din.type = T_DIR := by
  have hlook := root_dirlookup h hn p he rfl hfirst
  have hget := iget_root (s := rootLocked d) p (by rw [rootLocked_zero]; exact Nat.two_pos)
    (by rw [rootLocked_zero]) fun ip h0 => by rw [rootLocked_ne h0]
  have hroot : (UInt16.ofNat ROOTINO).toNat = ROOTINO := rfl
  rw [hroot, hget] at hlook
  have hadd : ((rootLocked d).addRef 0).itable 0 = ⟨ROOTINO, 3, true, true, dinode sb d ROOTINO⟩ := by
    simp [Sys.addRef, rootLocked_zero]
  have hput : ((((rootLocked d).addRef 0).setLocked 0 false).dropRef 0).itable 0
      = ⟨ROOTINO, 2, true, false, dinode sb d ROOTINO⟩ := by
    simp [Sys.dropRef, Sys.setLocked, hadd]
  refine ⟨0, _, _, namex_root h p hs hlook (by rw [hadd]) (by rw [hadd]; exact Nat.le_succ 2),
    ilock_eval_valid (by rw [hput]; exact Nat.two_pos) (by rw [hput]) (by rw [hput]), ?_⟩
  rw [Sys.setLocked, hput, Sys.itable_setInode, update_self]
  exact h.root_type

/-- Files with an empty name, and called `.` and `..`: all three paths lead to the root
directory. -/
theorem mkfs_dot_hidden : ∃ files d, Named files ∧ image files = .ok d ∧
    files.map HostFile.short = [[], dot, dotdot] ∧ ∀ f ∈ files, ∃ ip t u,
      (onBlocks (Super.ofBlock (d 1)) (namex (SLASH :: f.short) false)).eval (fsOp 0) (boot d)
        = .ok (some (ip, []), t) ∧
      (ilock (Super.ofBlock (d 1)) ip).eval (fsOp 0) t = .ok ((), u) ∧
      (u.itable ip).din.type = T_DIR := by
  have hf : Fits [⟨[95], []⟩, ⟨[95, 46], []⟩, ⟨[95, 46, 46], []⟩] :=
    ⟨by decide, by decide, by decide, by decide, by decide⟩
  have hn : Named [⟨[95], []⟩, ⟨[95, 46], []⟩, ⟨[95, 46, 46], []⟩] := ⟨hf, by decide⟩
  obtain ⟨d, hd, hM⟩ := image_spec hf
  refine ⟨_, d, hn, hd, by decide, fun f hmem => ?_⟩
  rw [hM.super]
  simp only [mem_cons, not_mem_nil, or_false] at hmem
  rcases hmem with rfl | rfl | rfl
  · have hget := iget_root (s := boot d) 0 Nat.one_pos rfl fun ip h0 => if_neg h0
    refine ⟨0, _, _, ?_, root_ilock hM 0, by rw [rootLocked_zero]; exact hM.root_type⟩
    have hroot : (SLASH :: HostFile.short ⟨[95], []⟩).head? = some SLASH := rfl
    have hend : elems (SLASH :: HostFile.short ⟨[95], []⟩) = [] := by rw [elems_eq]; rfl
    rw [eval_onBlocks, namex, if_pos hroot, Prog.eval_seq (eval_ino_igetRoot.trans hget), hend]
    rfl
  · exact namex_root_self (j := 0) hM hn 0 (elems_slash (by decide) (by decide) (by decide)) rfl
      fun i hi => absurd hi (Nat.not_lt_zero i)
  · refine namex_root_self (j := 1) hM hn 0 (elems_slash (by decide) (by decide) (by decide)) rfl
      fun i hi e' he' => ?_
    obtain rfl := Nat.lt_one_iff.mp hi
    obtain rfl : _ = e' := Option.some.inj he'
    decide

end

end Xv6.Fs.Mkfs
