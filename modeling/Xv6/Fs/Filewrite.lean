/-
# `Xv6.Fs.Filewrite` — a long write is a sequence of short ones

`filewrite` stores at most `writeMax` bytes in a transaction.  Each round takes up the
offset of the file as it finds it, and advances it before it unlocks the inode, so
that rounds of several processes that share the descriptor follow each other in the
file.

**Proved here.**

  * `filewrite` stores the first bytes of the buffer (`filewrite_stores`)
  * the pieces of all writers of a descriptor follow each other (`shared_writers`)
-/
import Xv6.Fs.Contents

namespace Xv6.Fs

open Machine Function List

/-- The file after `k` more bytes. -/
def advance (x : File Ptr) (k : Nat) : File Ptr := { x with off := x.off + k }

theorem advance_advance (x : File Ptr) (a b : Nat) : advance (advance x a) b = advance x (a + b) := by
  simp only [advance, Nat.add_assoc]

/-! ## Splicing -/

section
variable {l a b : List UInt8} {off : Nat}

@[simp] theorem splice_nil : splice l off [] = l := by
  rw [splice, append_nil, length_nil, Nat.add_zero, take_append_drop]

theorem length_splice (h : off ≤ l.length) :
    (splice l off a).length = max l.length (off + a.length) := by
  simp only [splice, length_append, length_take, length_drop]
  omega

theorem splice_splice (h : off ≤ l.length) :
    splice (splice l off a) (off + a.length) b = splice l off (a ++ b) := by
  have hlen := length_splice (a := a) h
  refine ext_getElem? fun m => ?_
  rw [getElem?_splice (by omega), getElem?_splice h, getElem?_splice h, length_append,
    List.getElem?_append]
  grind

end

/-! ## States that show the same inodes -/

structure Agree (sb : Super) (s t : Sys) : Prop where
  disk : t.disk = s.disk
  inode : t.inode sb = s.inode sb
  table : ∀ ip, (t.itable ip).ref = (s.itable ip).ref ∧ (t.itable ip).inum = (s.itable ip).inum

/-- `f` is open on inode `i`, which nobody has locked. -/
structure Idle (sb : Super) (s : Sys) (f : FilePtr) (x : File Ptr) (i : Nat) : Prop where
  file : s.file f = .opened x
  ref : 0 < (s.itable x.ip).ref
  inum : (s.itable x.ip).inum = i
  locked : (s.itable x.ip).locked = false
  lt : i < sb.ninodes.toNat
  type : (s.inode sb i).type ≠ 0
  off : x.off < 2 ^ 32
  noHoles : NoHoles sb s

variable {m n1 : Nat}

section
variable {sb : Super} {p : ProcPtr} {s t : Sys} {f : FilePtr} {x : File Ptr} {ip : Ptr} {i : Nat}
  {src : List UInt8} {n1 : Nat} {y : Inode} {r : Int} {k n : Nat}

theorem Agree.contents (h : Agree sb s t) : t.contents sb = s.contents sb := by
  funext i
  rw [Sys.contents, h.disk, h.inode, ← Sys.contents]

theorem Agree.noHoles (h : Agree sb s t) (hs : NoHoles sb s) : NoHoles sb t where
  layout := hs.layout
  table jp kp := by
    rw [(h.table jp).1, (h.table jp).2, (h.table kp).1, (h.table kp).2]
    exact hs.table jp kp
  exact := by
    rw [h.disk, h.inode]
    exact hs.exact
  full := by
    rw [h.disk, h.inode]
    exact hs.full

/-- What an entry of the table shows of its inode. -/
def Inode.shown (sb : Super) (d : Disk) (y : Inode) : Dinode :=
  if y.valid then y.din else dinode sb d y.inum

theorem agree_setInode (hr : y.ref = (s.itable ip).ref) (hi : y.inum = (s.itable ip).inum)
    (hv : y.shown sb s.disk = (s.itable ip).shown sb s.disk) : Agree sb s (s.setInode ip y) := by
  have htable : ∀ jp, ((s.setInode ip y).itable jp).ref = (s.itable jp).ref ∧
      ((s.setInode ip y).itable jp).inum = (s.itable jp).inum :=
    (forall_update_iff s.itable fun jp z => z.ref = (s.itable jp).ref ∧ z.inum = (s.itable jp).inum).mpr
      ⟨⟨hr, hi⟩, fun _ _ => ⟨rfl, rfl⟩⟩
  have hshown : ∀ jp, ((s.setInode ip y).itable jp).shown sb s.disk = (s.itable jp).shown sb s.disk :=
    (forall_update_iff s.itable fun jp z => z.shown sb s.disk = (s.itable jp).shown sb s.disk).mpr
      ⟨hv, fun _ _ => rfl⟩
  refine ⟨rfl, funext fun j => ?_, htable⟩
  rw [Sys.inode, Sys.inode, cached_congr htable]
  cases hc : s.cached j with
  | none => rfl
  | some jp =>
    have hj := (Sys.cached_some hc).2
    have := hshown jp
    rwa [Inode.shown, Inode.shown, (htable jp).2, hj] at this

theorem Idle.shown (h : Idle sb s f x i) : s.inode sb i = (s.itable x.ip).shown sb s.disk := by
  rw [Sys.inode, h.noHoles.cached h.ref h.inum, Inode.shown, h.inum]

theorem held_setInode (hr : 0 < y.ref) (hi : y.inum = i) (hv : y.valid = true)
    (hlt : i < sb.ninodes.toNat) (ht : y.din.type ≠ 0) : Held sb (s.setInode ip y) ip i := by
  have hy : (s.setInode ip y).itable ip = y := update_self ..
  exact ⟨by rwa [hy], by rwa [hy], by rwa [hy], hlt, by rwa [hy]⟩

/-- After `ilock`. -/
theorem Idle.ilock (h : Idle sb s f x i) : ∃ y, (ilock sb x.ip).eval (fsOp p) s
      = .ok ((), s.setInode x.ip y) ∧ y.locked = true ∧
    Held sb (s.setInode x.ip y) x.ip i ∧ Agree sb s (s.setInode x.ip y) := by
  have hshown := h.shown
  have htype := h.type
  cases hv : (s.itable x.ip).valid with
  | true =>
    rw [hshown, Inode.shown, if_pos hv] at htype
    exact ⟨_, ilock_eval_valid h.ref h.locked hv, rfl, held_setInode h.ref h.inum hv h.lt htype,
      agree_setInode rfl rfl rfl⟩
  | false =>
    rw [hshown, Inode.shown, hv] at htype
    refine ⟨_, ilock_eval_invalid h.ref h.locked hv htype, rfl,
      held_setInode h.ref h.inum rfl h.lt htype, agree_setInode rfl rfl ?_⟩
    rw [Inode.shown, Inode.shown, hv]
    rfl

/-! ## A round -/

/-- What a write of the bytes `bs` did. -/
structure Stored (sb : Super) (f : FilePtr) (x : File Ptr) (i : Nat) (bs : List UInt8) (s t : Sys) :
    Prop where
  start : bs = [] ∨ x.off ≤ (s.contents sb i).length
  contents : t.contents sb i = splice (s.contents sb i) x.off bs
  inodes : ∀ j < sb.ninodes.toNat, j ≠ i → t.inode sb j = s.inode sb j
  others : ∀ j < sb.ninodes.toNat, (s.inode sb j).type ≠ 0 → j ≠ i → t.contents sb j = s.contents sb j
  file : t.file = update s.file f (.opened (advance x bs.length))

theorem Stored.refl (h : Idle sb s f x i) : Stored sb f x i [] s s :=
  ⟨.inl rfl, splice_nil.symm, fun _ _ _ => rfl, fun _ _ _ _ => rfl,
    (update_eq_self_iff.mpr h.file.symm).symm⟩

theorem Stored.trans {u : Sys} {a b : List UInt8} (h : Stored sb f x i a s t)
    (h' : Stored sb f (advance x a.length) i b t u) : Stored sb f x i (a ++ b) s u := by
  have hstart : a ++ b = [] ∨ x.off ≤ (s.contents sb i).length := by
    rcases h.start with rfl | hle
    · have := h.contents
      rw [splice_nil] at this
      exact this ▸ h'.start
    · exact .inr hle
  refine ⟨hstart, ?_, fun j hj hji => (h'.inodes j hj hji).trans (h.inodes j hj hji),
    fun j hj ht hji => (h'.others j hj ?_ hji).trans (h.others j hj ht hji), ?_⟩
  · rw [h'.contents, h.contents]
    rcases hstart with hnil | hle
    · obtain ⟨rfl, rfl⟩ := append_eq_nil_iff.mp hnil
      simp only [splice_nil, append_nil]
    · exact splice_splice hle
  · rwa [h.inodes j hj hji]
  · rw [h'.file, h.file, update_idem, length_append, advance_advance]

/-- The end of a round. -/
def Sys.finish (s : Sys) (f : FilePtr) (x : File Ptr) (k : Nat) : Sys :=
  { (s.setFile f (.opened (advance x k))).setLocked x.ip false with log := none }

theorem getFile_eval (hf : s.file f = .opened x) :
    (Mem.getFile f).eval (fsOp p) s = .ok (some x, s) := by
  refine (Prog.eval_call _).trans ?_
  simp only [blockOp, memOp, hf]
  rfl

theorem filewriteRound_eval {s2 s3 : Sys} (hs : s.file f = .opened x)
    (hlock : (ilock sb x.ip).eval (fsOp p) { s with log := some [] } = .ok ((), s2))
    (hw : (writei sb x.ip src (UInt32.ofNat x.off) (UInt32.ofNat n1)).eval (fsOp p) s2 = .ok (r, s3))
    (hf : s3.file f = .opened x) (hl : (s3.itable x.ip).locked = true)
    (hr : 0 < (s3.itable x.ip).ref) (hk : r.toNat = k) :
    (filewriteRound sb f src n1).eval (fsOp p) s = .ok (r, s3.finish f x k) := by
  subst hk
  have hend : ∀ u : Sys, u.itable = s3.itable →
      (do iunlock x.ip; endOp; pure r : Prog (FsSig Nat) Int).eval (fsOp p) u
        = .ok (r, { u.setLocked x.ip false with log := none }) := by
    intro u hu
    rw [Prog.eval_seq (iunlock_eval (by rwa [hu]) (by rwa [hu])), Prog.eval_seq eval_endOp]
    rfl
  rw [filewriteRound, Prog.eval_seq (getFile_eval hs), Prog.eval_seq eval_beginOp,
    Prog.eval_seq hlock, Prog.eval_seq hw]
  by_cases hpos : 0 < r
  · rw [if_pos hpos]
    exact (Prog.eval_seq rfl).trans (hend _ rfl)
  · -- nothing is written, and the offset stays
    have hsame : s3.setFile f (.opened (advance x r.toNat)) = s3 := by
      rw [Int.toNat_of_nonpos (Int.not_lt.mp hpos), Sys.setFile]
      exact congrArg (fun g => { s3 with file := g }) (update_eq_self_iff.mpr hf.symm)
    rw [if_neg hpos, Sys.finish, hsame]
    exact hend s3 rfl

theorem agree_finish (k : Nat) : Agree sb s (s.finish f x k) :=
  have h : Agree sb s (s.setInode x.ip { s.itable x.ip with locked := false }) :=
    agree_setInode rfl rfl rfl
  ⟨h.disk, h.inode, h.table⟩

theorem idle_finish (hno : NoHoles sb s) (href : 0 < (s.itable x.ip).ref)
    (hinum : (s.itable x.ip).inum = i) (hlt : i < sb.ninodes.toNat) (ht : (s.inode sb i).type ≠ 0)
    (hoff : x.off + k < 2 ^ 32) : Idle sb (s.finish f x k) f (advance x k) i := by
  have ha : Agree sb s (s.finish f x k) := agree_finish k
  refine ⟨update_self .., ?_, (ha.table x.ip).2.trans hinum, ?_, hlt, ?_, hoff, ha.noHoles hno⟩
  · exact href.trans_eq (ha.table x.ip).1.symm
  · exact congrArg Inode.locked (update_self x.ip { s.itable x.ip with locked := false } s.itable)
  · rwa [ha.inode]

theorem stored_finish {bs : List UInt8} (hstart : bs = [] ∨ x.off ≤ (s.contents sb i).length)
    (hcont : t.contents sb i = splice (s.contents sb i) x.off bs)
    (hino : ∀ j < sb.ninodes.toNat, j ≠ i → t.inode sb j = s.inode sb j)
    (hoth : ∀ j < sb.ninodes.toNat, (s.inode sb j).type ≠ 0 → j ≠ i →
      t.contents sb j = s.contents sb j) (hfile : t.file = s.file) :
    Stored sb f x i bs s (t.finish f x bs.length) := by
  have ha : Agree sb t (t.finish f x bs.length) := agree_finish _
  refine ⟨hstart, ?_, ?_, ?_, congrArg (update · f _) hfile⟩
  · rwa [ha.contents]
  · rwa [ha.inode]
  · rwa [ha.contents]

/-- What makes a write of `n` bytes stop short. -/
def Short (sb : Super) (s t : Sys) (x : File Ptr) (i n : Nat) : Prop :=
  (s.contents sb i).length < x.off ∨ MAXFILE * BSIZE < x.off + n ∨
    Full sb t.disk ∧ blockEnd (s.contents sb i).length < x.off + n

theorem blockEnd_mono {a b : Nat} (h : a ≤ b) : blockEnd a ≤ blockEnd b :=
  Nat.mul_le_mul_right _ (Nat.div_le_div_right (Nat.add_le_add_right h _))

/-- What a round may write fits in the log. -/
theorem round_fits (off : Nat) (hn : n1 ≤ writeMax) : 6 * blocksOf off n1 + 1 ≤ LOGSIZE - 1 := by
  have hW : writeMax = 3072 := rfl
  have hL : LOGSIZE - 1 = 29 := rfl
  simp only [blocksOf, BSIZE, hL]
  split <;> omega

/-- A round stores the first `k` bytes of its piece. -/
theorem filewriteRound_spec (p : ProcPtr) (h : Idle sb s f x i) (hpos : 0 < n1) (hn : n1 ≤ writeMax)
    (hsrc : n1 ≤ src.length) : ∃ (r : Int) (k : Nat) (t : Sys),
      (filewriteRound sb f src n1).eval (fsOp p) s = .ok (r, t) ∧ k ≤ n1 ∧ (r = n1 ↔ k = n1) ∧
      Stored sb f x i (src.take k) s t ∧ Idle sb t f (advance x k) i ∧
      (k < n1 → Short sb s t x i n1) := by
  have hop : Idle sb { s with log := some [] } f x i :=
    ⟨h.file, h.ref, h.inum, h.locked, h.lt, h.type, h.off,
      h.noHoles.layout, h.noHoles.table, h.noHoles.exact, h.noHoles.full⟩
  obtain ⟨y, hlock, hl, hheld, hag'⟩ := hop.ilock
  set s2 := Sys.setInode { s with log := some [] } x.ip y with hs2
  have hag : Agree sb s s2 := ⟨hag'.disk, hag'.inode, hag'.table⟩
  have hlocked : (s2.itable x.ip).locked = true := (congrArg Inode.locked (update_self ..)).trans hl
  have hno : NoHoles sb s2 := hag.noHoles h.noHoles
  have hx : (UInt32.ofNat x.off).toNat = x.off := UInt32.toNat_ofNat_of_lt' h.off
  have hn1 : (UInt32.ofNat n1).toNat = n1 := UInt32.toNat_ofNat_of_lt' (hn.trans_lt (by decide))
  by_cases hbad : (s.contents sb i).length < x.off ∨ MAXFILE * BSIZE < x.off + n1
  · have hw : (writei sb x.ip src (UInt32.ofNat x.off) (UInt32.ofNat n1)).eval (fsOp p) s2
        = .ok (-1, s2) := writei_refused p x.ip (by
      rw [hx, hn1, ← hheld.inode hno, hag.inode, ← length_contents]
      exact hbad)
    have htype : (s2.inode sb i).type ≠ 0 := by
      rw [hag.inode]
      exact h.type
    refine ⟨-1, 0, _, filewriteRound_eval h.file hlock hw h.file hlocked hheld.ref rfl, Nat.zero_le _,
      by omega, stored_finish (.inl rfl) ?_ (fun j _ _ => congrFun hag.inode j)
      (fun j _ _ _ => congrFun hag.contents j) rfl,
      idle_finish hno hheld.ref hheld.inum h.lt htype h.off, fun _ => hbad.imp_right .inl⟩
    rw [take_zero, splice_nil, hag.contents]
  · obtain ⟨hle, hmax⟩ := not_or.mp hbad
    have hoff : (UInt32.ofNat x.off).toNat ≤ (s2.contents sb i).length := by
      rw [hx, hag.contents]
      exact Nat.not_lt.mp hle
    obtain ⟨k, s3, hw, hk, hfull, hR, -⟩ := writei_endless (p := p) hno hheld _ _ rfl
      (hn1.trans_le hsrc)
      hoff (by omega)
    rw [← (logs_writei ..).eval_eq (by
      rw [hx, hn1]
      exact (Nat.zero_add _).trans_le (round_fits x.off hn))] at hw
    rw [hn1] at hk hfull
    rw [hx] at hR hfull
    rw [hag.contents] at hfull
    obtain ⟨z, hz⟩ := hR.table x.ip
    have hlen : (src.take k).length = k := length_take_of_le (le_trans hk hsrc)
    have hbig : MAXFILE * BSIZE < 2 ^ 32 := by decide
    have href : 0 < (s3.itable x.ip).ref := by
      rw [hz]
      exact hheld.ref
    have hround := filewriteRound_eval h.file hlock hw (hR.file ▸ h.file)
      (by rwa [hz]) href rfl
    have hstored : Stored sb f x i (src.take k) s (s3.finish f x (src.take k).length) :=
      stored_finish (.inr (Nat.not_lt.mp hle)) (by rw [hR.contents, hag.contents])
        (fun j hj hji => (hR.inodes j hj hji).trans (congrFun hag.inode j))
        (fun j hj ht hji => (hR.others j hj (by rwa [hag.inode]) hji).trans (congrFun hag.contents j))
        hR.file
    rw [hlen] at hstored
    refine ⟨k, k, _, hround, hk, Int.natCast_inj, hstored, idle_finish hR.noHoles href
      (by rw [hz]; exact hheld.inum) h.lt ?_ (by omega), fun hlt => .inr (.inr (hfull hlt))⟩
    rw [hR.type, hag.inode]
    exact h.type

/-! ## The loop -/

/-- A round, and then the rest of the loop. -/
theorem filewriteLoop_eval (fuel : Nat) (hlt : m < n) (hn1 : min (n - m) writeMax = n1)
    (hr : (filewriteRound sb f (src.drop m) n1).eval (fsOp p) s = .ok (r, t)) :
    (filewriteLoop sb f src n (fuel + 1) m).eval (fsOp p) s
      = if r = n1 then (filewriteLoop sb f src n fuel (m + n1)).eval (fsOp p) t
        else .ok (-1, t) := by
  subst hn1
  rw [filewriteLoop, if_pos hlt, Prog.eval_seq hr]
  split
  case isTrue => rfl
  case isFalse heq => rw [if_pos (not_not.mp heq)]

theorem filewriteLoop_spec {fuel : Nat} (h : Idle sb s f x i) (hsrc : n ≤ src.length)
    (hm : m ≤ n) (hfuel : n + writeMax ≤ m + fuel * writeMax) : ∃ (k : Nat) (t : Sys),
      (filewriteLoop sb f src n fuel m).eval (fsOp p) s = .ok (if m + k = n then (n : Int) else -1, t) ∧
      m + k ≤ n ∧ Stored sb f x i ((src.drop m).take k) s t ∧ Idle sb t f (advance x k) i ∧
      (m + k < n → Short sb s t x i (n - m)) := by
  have hW : writeMax = 3072 := rfl
  -- `fuel` counts the rounds that may be left; the offset moves on with `m`
  induction fuel generalizing m s x with
  | zero => omega
  | succ fuel ih =>
    by_cases hlt : m < n
    · obtain ⟨n1, hn1⟩ : ∃ n1, min (n - m) writeMax = n1 := ⟨_, rfl⟩
      obtain ⟨r, k, t, hr, hk, hrk, hS, hI, hshort⟩ := filewriteRound_spec p h
        (show 0 < n1 by omega) (hn1 ▸ min_le_right ..)
        (show n1 ≤ (src.drop m).length by rw [length_drop]; omega)
      have heval := filewriteLoop_eval fuel hlt hn1 hr
      by_cases hall : k = n1
      · rw [if_pos (hrk.mpr hall)] at heval
        subst hall
        obtain ⟨k', u, hu, hk', hS', hI', hshort'⟩ := ih (m := m + k) hI (by omega)
          (by rw [hW] at *; omega)
        have hlen : ((src.drop m).take k).length = k :=
          length_take_of_le (by rw [length_drop]; omega)
        refine ⟨k + k', u, heval.trans (by rw [hu, Nat.add_assoc]), by omega, ?_, ?_, fun hlt' => ?_⟩
        · rw [take_add, drop_drop]
          exact hS.trans (hlen.symm ▸ hS')
        · rwa [← advance_advance]
        · -- the round before left the offset inside the file
          have hstart : x.off ≤ (s.contents sb i).length := hS.start.resolve_left fun hnil => by
            rw [hnil] at hlen
            exact absurd hlen (by simp; omega)
          have hgrow : (t.contents sb i).length = max (s.contents sb i).length (x.off + k) := by
            rw [hS.contents, length_splice hstart, hlen]
          have hadv : (advance x k).off = x.off + k := rfl
          rcases hshort' (by omega) with hoff | hmax | ⟨hfull, hlast⟩
          · omega
          · exact .inr (.inl (by omega))
          · have hle := blockEnd_mono (hgrow ▸ le_max_left .. : (s.contents sb i).length ≤ _)
            exact .inr (.inr ⟨hfull, (hle.trans_lt hlast).trans_eq (by omega)⟩)
      · rw [if_neg (mt hrk.mp hall)] at heval
        refine ⟨k, t, by rw [heval, if_neg (by omega)], by omega, hS, hI, fun _ => ?_⟩
        rcases hshort (by omega) with hoff | hmax | hfull
        · exact .inl hoff
        · exact .inr (.inl (by omega))
        · exact .inr (.inr ⟨hfull.1, hfull.2.trans_le (by omega)⟩)
    · obtain rfl : m = n := by omega
      refine ⟨0, s, ?_, by omega, ?_, h, fun h => absurd h (by omega)⟩
      · rw [filewriteLoop, if_neg hlt, if_pos (Nat.add_zero m)]
        rfl
      · rw [take_zero]
        exact Stored.refl h

/-- A call of `filewrite` for `n` bytes on a descriptor that is open for writing stores
the first `k` of them, returns `n` if these are all and -1 otherwise, and stops short
only at the end of what can be written. -/
theorem filewrite_stores (p : ProcPtr) {n : Nat} (h : Idle sb s f x i) (hx : x.kind = .inode)
    (hw : x.writable = true) (hsrc : n ≤ src.length) : ∃ (k : Nat) (t : Sys),
      (filewrite sb f src n).eval (fsOp p) s = .ok (if k = n then (n : Int) else -1, t) ∧ k ≤ n ∧
      Stored sb f x i (src.take k) s t ∧ (k < n → Short sb s t x i n) := by
  have hfuel : n + writeMax ≤ 0 + (n / writeMax + 2) * writeMax := by
    rw [show writeMax = 3072 from rfl]
    omega
  obtain ⟨k, t, ht, hk, hS, -, hshort⟩ := filewriteLoop_spec h hsrc (Nat.zero_le n) hfuel
  rw [Nat.zero_add] at ht hk hshort
  refine ⟨k, t, ?_, hk, hS, hshort⟩
  rw [filewrite, Prog.eval_seq (getFile_eval h.file)]
  simp only [hx, hw, reduceCtorEq, ne_eq, not_true_eq_false, or_self, if_false]
  exact ht

end

/-- `cat` on a new file system, with the offset at its end. -/
def Mkfs.cat (w : Bool) : File Ptr := ⟨.inode, true, w, 1, 3⟩

/-- The root directory, and `cat`. -/
def Mkfs.catTable (ip : Ptr) : Inode :=
  ⟨ip.val + 1, if ip.val < 2 then 1 else 0, false, false, Dinode.zero⟩

def Mkfs.catOpen (d : Disk) (w : Bool) : Sys :=
  { boot d with itable := catTable, file := fun _ => .opened (cat w) }

theorem Mkfs.idle_catOpen : ∃ d, image [⟨[95, 99, 97, 116], [1, 2, 3]⟩] = .ok d ∧
    (∀ w, Idle sb (catOpen d w) 0 (cat w) 2) ∧ ∀ w, (catOpen d w).contents sb 2 = [1, 2, 3] := by
  have hf : Fits [⟨[95, 99, 97, 116], [1, 2, 3]⟩] :=
    ⟨by decide, by decide, by decide, by decide, by decide⟩
  obtain ⟨d, hd, hM⟩ := image_spec hf
  have hino : ∀ w, (catOpen d w).inode sb = dinode sb d := by
    intro w
    funext i
    rw [Sys.inode]
    cases (catOpen d w).cached i <;> rfl
  refine ⟨d, hd, fun w => ⟨rfl, Nat.one_pos, rfl, rfl, by decide, ?_, (by decide : 3 < 2 ^ 32),
    noHoles_of_disk ((hM.consistent_iff hf.count).mpr (by decide)) (hino w) fun _ _ _ _ h =>
      Fin.ext (Nat.succ_inj.mp h)⟩, fun w => ?_⟩
  · rw [hino, (hM.attr 2 (by decide) (by decide)).1]
    decide
  · have hsize : (dinode sb d 2).size.toNat = 3 := hM.size 2 (by decide) (by decide)
    have hbyte : ∀ m < 3, byteAt d (dinode sb d 2) m = [1, 2, 3].getD m 0 := fun m hm =>
      hM.file_byte (by decide) (by decide) hm
    rw [Sys.contents, hino, hsize]
    simp [bytesAt, range_succ, catOpen, boot, hbyte]

/-- A call that may not write returns -1 also when there is nothing to write. -/
theorem filewrite_readonly : ¬ ∀ (sb : Super) (p : ProcPtr) (s : Sys) (f : FilePtr) (x : File Ptr)
    (i : Nat) (src : List UInt8) (n : Nat), Idle sb s f x i → x.kind = .inode → n ≤ src.length →
      ∃ (k : Nat) (t : Sys),
        (filewrite sb f src n).eval (fsOp p) s = .ok (if k = n then (n : Int) else -1, t) ∧ k ≤ n ∧
        Stored sb f x i (src.take k) s t ∧ (k < n → Short sb s t x i n) := by
  intro hall
  obtain ⟨d, -, hI, -⟩ := Mkfs.idle_catOpen
  obtain ⟨k, t, he, hk, -⟩ := hall Mkfs.sb 0 _ 0 _ 2 [] 0 (hI false) rfl (Nat.zero_le _)
  rw [filewrite, Prog.eval_seq (getFile_eval (hI false).file), if_pos (Nat.le_zero.mp hk)] at he
  exact absurd he (by simp [Mkfs.cat, Prog.pure_def, Prog.eval])

/-- Two bytes at the end of `cat`. -/
theorem filewrite_stores_cat : ∃ d k t, Mkfs.image [⟨[95, 99, 97, 116], [1, 2, 3]⟩] = .ok d ∧
    (filewrite Mkfs.sb 0 [7, 8] 2).eval (fsOp 0) (Mkfs.catOpen d true)
      = .ok (if k = 2 then 2 else -1, t) ∧ k ≤ 2 ∧
    t.contents Mkfs.sb 2 = splice ((Mkfs.catOpen d true).contents Mkfs.sb 2) 3 ([7, 8].take k) := by
  obtain ⟨d, hd, hI, -⟩ := Mkfs.idle_catOpen
  obtain ⟨k, t, he, hk, hS, -⟩ := filewrite_stores 0 (hI true) rfl rfl
    (show 2 ≤ ([7, 8] : List UInt8).length by decide)
  exact ⟨d, k, t, hd, he, hk, hS.contents⟩

/-! ## Writers that share the descriptor -/

/-- The pieces in which `filewrite` stores a buffer. -/
def chunks (src : List UInt8) : List (List UInt8) :=
  if src = [] then [] else src.take writeMax :: chunks (src.drop writeMax)
termination_by src.length
decreasing_by
  have hpos := length_pos_of_ne_nil ‹_›
  have hW : writeMax = 3072 := rfl
  rw [length_drop]
  omega

/-- A process that calls `filewrite` for one buffer after the other, `i` bytes of the
first one being written. -/
structure Writer where
  calls : List (List UInt8)
  i : Nat

/-- The pieces that are left to be written. -/
def Writer.left : Writer → List (List UInt8)
  | ⟨[], _⟩ => []
  | ⟨src :: rest, i⟩ => chunks (src.drop i) ++ rest.flatMap chunks

/-- `failed` says that some call has returned -1. -/
structure Shared (W : Type) where
  sys : Sys
  writer : W → Writer
  failed : Bool

section
variable {sb : Super} {f : FilePtr} {x : File Ptr} {i : Nat} {src : List UInt8}
  {W : Type} [DecidableEq W]
  {w : W} {c : List (List UInt8)} {s u : Shared W}

/-- Writer `w` goes once round the loop, or returns from its call. -/
def Shared.step (sb : Super) (f : FilePtr) (p : W → ProcPtr) (s : Shared W) (w : W) :
    Option (Shared W) :=
  match s.writer w with
  | ⟨[], _⟩ => none
  | ⟨src :: rest, i⟩ =>
    if i < src.length then
      match (filewriteRound sb f (src.drop i) (min (src.length - i) writeMax)).eval
          (fsOp (p w)) s.sys with
      | .error _ => none
      | .ok (r, t) =>
        if r = (min (src.length - i) writeMax : Nat) then
          some ⟨t, update s.writer w ⟨src :: rest, i + min (src.length - i) writeMax⟩, s.failed⟩
        else some ⟨t, update s.writer w ⟨rest, 0⟩, true⟩
    else some ⟨s.sys, update s.writer w ⟨rest, 0⟩, s.failed⟩

theorem chunks_drop (hm : m < src.length) (hn1 : min (src.length - m) writeMax = n1) :
    chunks (src.drop m) = (src.drop m).take n1 :: chunks (src.drop (m + n1)) := by
  have hne : src.drop m ≠ [] := by
    rw [ne_eq, drop_eq_nil_iff]
    omega
  have hlen : (src.drop m).length = src.length - m := length_drop
  rw [chunks, if_neg hne, drop_drop]
  by_cases hle : writeMax ≤ src.length - m
  · rw [← hn1, min_eq_right hle]
  · -- the last piece is the whole rest
    have hend {n2 : Nat} (h : src.length ≤ m + n2) : src.drop (m + n2) = [] := drop_eq_nil_of_le h
    rw [take_of_length_le (by omega), take_of_length_le (by omega), hend (by omega),
      hend (by omega)]

/-- What a step of writer `w` did if it did not fail: the pieces `c` were written. -/
structure Wrote (sb : Super) (f : FilePtr) (x : File Ptr) (i : Nat) (w : W) (c : List (List UInt8))
    (s t : Shared W) : Prop where
  stored : Stored sb f x i c.flatten s.sys t.sys
  idle : Idle sb t.sys f (advance x c.flatten.length) i
  small : ∀ b ∈ c, b.length ≤ writeMax
  left : ∀ v, (s.writer v).left = (if v = w then c else []) ++ (t.writer v).left

theorem left_update {z : W → Writer} {y : Writer} (h : (z w).left = c ++ y.left) (v : W) :
    (z v).left = (if v = w then c else []) ++ (update z w y v).left := by
  by_cases hv : v = w
  · subst hv
    rw [if_pos rfl, update_self, h]
  · rw [if_neg hv, update_of_ne hv, nil_append]

/-- What a step of writer `w` does that has `m` bytes of `src` behind it:  it stores the
next piece, or fails with less than that and for a reason;  when all is written, it returns. -/
def Stepped (sb : Super) (f : FilePtr) (x : File Ptr) (i : Nat) (w : W) (src : List UInt8)
    (rest : List (List UInt8)) (m : Nat) (s u : Shared W) : Prop :=
  if m < src.length then
    ∃ k ≤ min (src.length - m) writeMax, Stored sb f x i ((src.drop m).take k) s.sys u.sys ∧
      Idle sb u.sys f (advance x k) i ∧
      if k = min (src.length - m) writeMax then
        u.writer = update s.writer w ⟨src :: rest, m + k⟩ ∧ u.failed = s.failed
      else u.writer = update s.writer w ⟨rest, 0⟩ ∧ u.failed = true ∧
        Short sb s.sys u.sys x i (min (src.length - m) writeMax)
  else u = ⟨s.sys, update s.writer w ⟨rest, 0⟩, s.failed⟩

/-- A writer that has something to do can go on. -/
theorem Shared.step_spec {rest : List (List UInt8)} (p : W → ProcPtr) (h : Idle sb s.sys f x i)
    (hz : s.writer w = ⟨src :: rest, m⟩) : ∃ u, Shared.step sb f p s w = some u ∧
      Stepped sb f x i w src rest m s u ∧ (u.failed = false → ∃ c, Wrote sb f x i w c s u) := by
  simp only [Shared.step, hz, Stepped]
  by_cases hm : m < src.length
  · obtain ⟨n1, hn1⟩ : ∃ n1, min (src.length - m) writeMax = n1 := ⟨_, rfl⟩
    have hW : writeMax = 3072 := rfl
    have hlen : n1 ≤ (src.drop m).length := by
      rw [length_drop]
      omega
    obtain ⟨r, k, t, hr, hk, hrk, hS, hI, hshort⟩ := filewriteRound_spec (p w) h
      (show 0 < n1 by omega) (hn1 ▸ min_le_right ..) hlen
    simp only [if_pos hm, hn1, hr]
    by_cases hall : r = n1
    · obtain rfl := hrk.mp hall
      rw [if_pos hall]
      refine ⟨_, rfl, ⟨k, hk, hS, hI, by rw [if_pos rfl]; exact ⟨rfl, rfl⟩⟩, fun _ =>
        ⟨[(src.drop m).take k], ?_, ?_, fun b hb => ?_, left_update ?_⟩⟩
      · rwa [flatten_singleton]
      · rwa [flatten_singleton, length_take_of_le hlen]
      · rw [mem_singleton.mp hb, length_take_of_le hlen]
        omega
      · rw [hz, Writer.left, Writer.left, chunks_drop hm hn1]
        rfl
    · have hne : k ≠ n1 := mt hrk.mpr hall
      rw [if_neg hall]
      refine ⟨_, rfl, ⟨k, hk, hS, hI, ?_⟩, nofun⟩
      rw [if_neg hne]
      exact ⟨rfl, rfl, hshort (lt_of_le_of_ne hk hne)⟩
  · simp only [if_neg hm]
    refine ⟨_, rfl, rfl, fun _ => ⟨[], Stored.refl h, h, nofun, left_update ?_⟩⟩
    rw [hz, Writer.left, drop_eq_nil_of_le (Nat.not_lt.mp hm), chunks, if_pos rfl]
    cases rest <;> rfl

theorem Shared.of_step {p : W → ProcPtr} (h : Shared.step sb f p s w = some u) :
    (∃ src rest m, s.writer w = ⟨src :: rest, m⟩) ∧ (u.failed = false → s.failed = false) := by
  rw [Shared.step] at h
  split at h
  · cases h
  · rename_i hz
    refine ⟨⟨_, _, _, hz⟩, fun hu => ?_⟩
    split at h
    · split at h
      · cases h
      · split at h <;> cases h
        · exact hu
        · cases hu
    · cases h
      exact hu

/-- The pieces `L`, each with its writer, are what was written from `s` to `t`. -/
structure Merged (sb : Super) (f : FilePtr) (x : File Ptr) (i : Nat) (L : List (W × List UInt8))
    (s t : Shared W) : Prop where
  /-- The file holds the pieces one after the other, and the offset is behind the last one. -/
  stored : Stored sb f x i (L.map Prod.snd).flatten s.sys t.sys
  idle : Idle sb t.sys f (advance x (L.map Prod.snd).flatten.length) i
  small : ∀ c ∈ L, c.2.length ≤ writeMax
  /-- Each writer's pieces are there in its own order. -/
  order : ∀ w, (L.filter (·.1 = w)).map Prod.snd ++ (t.writer w).left = (s.writer w).left

theorem Merged.step {L : List (W × List UInt8)} {t : Shared W}
    (h : Merged sb f x i L s t)
    (hw : Wrote sb f (advance x (L.map Prod.snd).flatten.length) i w c t u) :
    Merged sb f x i (L ++ c.map (w, ·)) s u := by
  have hflat : ((L ++ c.map (w, ·)).map Prod.snd).flatten = (L.map Prod.snd).flatten ++ c.flatten := by
    simp only [map_append, map_map, flatten_append, Function.comp_def, map_id']
  refine ⟨?_, ?_, fun b hb => ?_, fun v => ?_⟩
  · rw [hflat]
    exact h.stored.trans hw.stored
  · rw [hflat, length_append, ← advance_advance]
    exact hw.idle
  · rcases mem_append.mp hb with hb | hb
    · exact h.small b hb
    · obtain ⟨b, hb', rfl⟩ := mem_map.mp hb
      exact hw.small b hb'
  · rw [← h.order v, hw.left v, filter_append, map_append, append_assoc]
    by_cases hv : v = w
    · subst hv
      simp [filter_map, Function.comp_def]
    · simp [filter_map, Function.comp_def, hv, Ne.symm hv]

/-- However the rounds of writers that share a descriptor follow each other:  as long as
no call has failed, the file holds the pieces of all of them, one after the other from the
initial offset on, each writer's in its own order and none missing, and every writer that
has a call left can go on, storing its next piece behind those. -/
theorem shared_writers (sb : Super) (f : FilePtr) (p : W → ProcPtr) (x : File Ptr) (i : Nat)
    (s : Shared W) (hs : Idle sb s.sys f x i) {h : List (Shared W × W)} {t : Shared W}
    (r : Run (· = s) (Shared.step sb f p) h t) (hok : t.failed = false) :
    ∃ L, Merged sb f x i L s t ∧ ∀ w src rest m, t.writer w = ⟨src :: rest, m⟩ →
      ∃ u, Shared.step sb f p t w = some u ∧
        Stepped sb f (advance x (L.map Prod.snd).flatten.length) i w src rest m t u := by
  have hinv : t.failed = false → ∃ L, Merged sb f x i L s t := by
    refine r.inv (I := fun t => t.failed = false → ∃ L, Merged sb f x i L s t) ?_ ?_
    · rintro _ rfl -
      exact ⟨[], Stored.refl hs, hs, nofun, fun _ => rfl⟩
    · intro t w u ih hst hu
      obtain ⟨⟨src, rest, m, hz⟩, hf⟩ := Shared.of_step hst
      obtain ⟨L, hL⟩ := ih (hf hu)
      obtain ⟨u', hst', -, hwrote⟩ := Shared.step_spec p hL.idle hz
      obtain rfl := Option.some.inj (hst'.symm.trans hst)
      obtain ⟨c, hc⟩ := hwrote hu
      exact ⟨_, hL.step hc⟩
  obtain ⟨L, hL⟩ := hinv hok
  refine ⟨L, hL, fun w src rest m hz => ?_⟩
  obtain ⟨u, hu, hst, -⟩ := Shared.step_spec p hL.idle hz
  exact ⟨u, hu, hst⟩

/-- A byte at the end of a file, in a block that is there. -/
theorem Stepped.stored {b : UInt8} {t : Shared W} (h : Stepped sb f x i w [b] [] 0 t u)
    (hoff : x.off = (t.sys.contents sb i).length) (hend : x.off < blockEnd x.off)
    (hmax : x.off < MAXFILE * BSIZE) : u.sys.contents sb i = t.sys.contents sb i ++ [b] ∧
      Idle sb u.sys f (advance x 1) i ∧ u.failed = t.failed ∧
      u.writer = update t.writer w ⟨[[b]], 1⟩ := by
  rw [Stepped, if_pos (show 0 < [b].length from Nat.one_pos)] at h
  obtain ⟨k, hk, hS, hI, hcase⟩ := h
  have hmin : min ([b].length - 0) writeMax = 1 := rfl
  rw [hmin] at hk hcase
  by_cases hk1 : k = 1
  · subst hk1
    rw [if_pos rfl] at hcase
    refine ⟨?_, hI, hcase.2, hcase.1⟩
    rw [hS.contents, hoff, splice, take_length, drop_eq_nil_of_le (Nat.le_add_right ..), append_nil]
    rfl
  · rw [if_neg hk1] at hcase
    rcases hcase.2.2 with hlow | hbig | ⟨-, hlast⟩
    · omega
    · omega
    · rw [← hoff] at hlast
      omega

end

/-- Two writers of a byte each, at the end of `cat`. -/
def Mkfs.catShared (d : Disk) : Shared Bool :=
  ⟨catOpen d true, fun w => ⟨[[if w then 7 else 8]], 0⟩, false⟩

/-- Both have written. -/
theorem shared_writers_two : ∃ (d : Disk) (h : List (Shared Bool × Bool)) (t : Shared Bool)
    (L : List (Bool × List UInt8)), Mkfs.image [⟨[95, 99, 97, 116], [1, 2, 3]⟩] = .ok d ∧
    Run (· = Mkfs.catShared d) (Shared.step Mkfs.sb 0 fun _ => 0) h t ∧
    Merged Mkfs.sb 0 (Mkfs.cat true) 2 L (Mkfs.catShared d) t ∧
    t.sys.contents Mkfs.sb 2 = [1, 2, 3, 7, 8] := by
  obtain ⟨d, hd, hI, hc⟩ := Mkfs.idle_catOpen
  obtain ⟨u, hu, hst, -⟩ := Shared.step_spec (s := Mkfs.catShared d) (w := true)
    (fun _ => 0) (hI true) rfl
  obtain ⟨hcu, hIu, hfu, hwu⟩ := hst.stored (congrArg length (hc true)).symm (by decide) (by decide)
  replace hcu := hcu.trans (congrArg (· ++ [7]) (hc true))
  obtain ⟨t, ht, hst', -⟩ := Shared.step_spec (s := u) (w := false) (fun _ => 0) hIu
    (by rw [hwu]; rfl : u.writer false = ⟨[[8]], 0⟩)
  obtain ⟨hct, -, hft, -⟩ := hst'.stored (congrArg length hcu).symm (by decide) (by decide)
  have r0 : Run (· = Mkfs.catShared d) (Shared.step Mkfs.sb 0 fun _ => 0) [] _ := Run.init rfl
  have r := (r0.step hu).step ht
  obtain ⟨L, hL, -⟩ := shared_writers Mkfs.sb 0 _ _ 2 _ (hI true) r (hft.trans hfu)
  exact ⟨d, _, t, L, hd, r, hL, hct.trans (congrArg (· ++ [8]) hcu)⟩

end Xv6.Fs
