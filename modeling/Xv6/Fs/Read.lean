/-
# `Xv6.Fs.Read` — what `readi` and the directory scans return

Reading an inode whose blocks are all there changes nothing and returns the bytes of
the file; the scans of a directory then see its entries.
-/
import Xv6.Fs.Seq

namespace Xv6.Fs

open Machine List

/-- The bytes of a file from `off` on. -/
def bytesAt (d : Disk) (x : Dinode) (off n : Nat) : List UInt8 :=
  (List.range n).map fun j => byteAt d x (off + j)

/-- How many bytes `readi` returns, if all can be copied. -/
def readLen (x : Dinode) (off n : UInt32) : Nat :=
  if x.size < off ∨ off + n < off then 0 else min n.toNat (x.size.toNat - off.toNat)

section
variable {sb : Super} {p : ProcPtr} {s : Sys} {ip : Ptr} {x : Dinode} {off n tot m bn k : Nat}
  {full : Nat → Bool}

/-! ## ilock -/

theorem acquiresleep_eval (hl : (s.itable ip).locked = false) :
    (Mem.acquiresleep ip).eval (fsOp p) s = .ok ((), s.setLocked ip true) := by
  refine (Prog.eval_call _).trans ?_
  simp only [blockOp, memOp, hl]
  rfl

theorem ilock_eval_valid (href : 0 < (s.itable ip).ref) (hl : (s.itable ip).locked = false)
    (hv : (s.itable ip).valid = true) :
    (ilock sb ip).eval (fsOp p) s = .ok ((), s.setLocked ip true) := by
  rw [ilock]
  simp only [Prog.bind_def, Prog.eval_bind, eval_ref, Except.bind, if_neg (Nat.not_lt.mpr href),
    acquiresleep_eval hl, eval_valid, Sys.setLocked, Sys.itable_setInode, Function.update_self, hv,
    if_true]
  rfl

/-- An inode whose copy is not valid is read from disk. -/
theorem ilock_eval_invalid (href : 0 < (s.itable ip).ref) (hl : (s.itable ip).locked = false)
    (hv : (s.itable ip).valid = false) (ht : (dinode sb s.disk (s.itable ip).inum).type ≠ 0) :
    (ilock sb ip).eval (fsOp p) s = .ok ((), s.setInode ip { s.itable ip with
      valid := true, locked := true, din := dinode sb s.disk (s.itable ip).inum }) := by
  have ht' : ¬ (getDinode (s.disk (sb.IBLOCK (s.itable ip).inum))
      ((s.itable ip).inum % IPB)).type = 0 := ht
  rw [ilock]
  simp only [Prog.bind_def, Prog.eval_bind, eval_ref, Except.bind, if_neg (Nat.not_lt.mpr href),
    acquiresleep_eval hl, eval_valid, Sys.setLocked, Sys.itable_setInode, Function.update_self, hv,
    Bool.false_eq_true,
    if_false, eval_inum, eval_bread, eval_getData, Sys.disk_setInode, eval_setDin, eval_brelse,
    eval_setValid, if_neg ht']
  simp [Prog.eval, Sys.setValid, Sys.setDin, Sys.setInode, dinode]

/-! ## bmap -/

theorem bmapAddr_eval {k : Fin (NDIRECT + 1)} (hx : (s.itable ip).din = x) (hk : x.addrs k ≠ 0) :
    (bmapAddr sb ip k).eval (blockOp full p) s = .ok (x.addrs k, s) := by
  simp [bmapAddr, Prog.eval_bind, Except.bind, hx, hk, Prog.eval]

theorem bmapEntry_eval {ind : UInt32} (h : (s.disk ind.toNat).u32 (4 * bn) ≠ 0) :
    (bmapEntry sb ind bn).eval (blockOp full p) s = .ok ((s.disk ind.toNat).u32 (4 * bn), s) := by
  simp [bmapEntry, Prog.eval_bind, Except.bind, h, Prog.eval]

theorem ind_ne_zero_of_blockAt (hbn : ¬ bn < NDIRECT) (h : blockAt s.disk x bn ≠ 0) : x.ind ≠ 0 := by
  intro h0
  refine h (slot_of_no_ind h0 ?_)
  unfold slotOf
  split <;> omega

theorem bmap_eval (hx : (s.itable ip).din = x) (hbn : bn < MAXFILE) (h : blockAt s.disk x bn ≠ 0) :
    (bmap sb ip bn).eval (blockOp full p) s = .ok (blockAt s.disk x bn, s) := by
  unfold bmap
  by_cases hd : bn < NDIRECT
  · have hs : blockAt s.disk x bn = x.addrs ⟨bn, by omega⟩ := by
      rw [blockAt, slotOf, if_pos hd, slot_addr (by omega)]
    rw [dif_pos hd, hs]
    exact bmapAddr_eval hx (hs ▸ h)
  · have hlt : bn - NDIRECT < NINDIRECT := by
      simp only [MAXFILE] at hbn
      omega
    have hind := ind_ne_zero_of_blockAt hd h
    have hs : blockAt s.disk x bn = (s.disk x.ind.toNat).u32 (4 * (bn - NDIRECT)) := by
      rw [blockAt, slotOf, if_neg hd, ← slot_entry hind hlt]
      congr 1
      omega
    rw [dif_neg hd, if_pos hlt, Prog.bind_def, Prog.eval_bind, bmapAddr_eval hx hind]
    simp only [Except.bind, if_neg hind]
    rw [hs]
    exact bmapEntry_eval (hs ▸ h)

/-! ## readi -/

theorem slice_eq_bytesAt (h : off % BSIZE + m ≤ BSIZE) :
    (s.disk (blockAt s.disk x (off / BSIZE)).toNat).slice (off % BSIZE) m = bytesAt s.disk x off m := by
  unfold Bytes.slice bytesAt byteAt
  refine map_congr_left fun j hj => ?_
  have hj := mem_range.mp hj
  have hB : BSIZE = 1024 := rfl
  rw [hB] at h
  have hdiv : (off + j) / BSIZE = off / BSIZE := by rw [hB]; omega
  have hmod : (off + j) % BSIZE = off % BSIZE + j := by rw [hB]; omega
  rw [hdiv, hmod]

theorem bytesAt_append (d : Disk) (off m n : Nat) :
    bytesAt d x off m ++ bytesAt d x (off + m) n = bytesAt d x off (m + n) := by
  unfold bytesAt
  rw [range_add, map_append, map_map]
  congr 1
  exact map_congr_left fun j _ => by simp [Nat.add_assoc]

/-- The rounds of the loop are enough. -/
theorem readiLoop_eval (sb : Super) (p : ProcPtr) (dst : Option Nat) (fuel off tot : Nat)
    (hx : (s.itable ip).din = x)
    (hfuel : tot < n → off % BSIZE + (n - tot) ≤ fuel * BSIZE) (htot : tot ≤ n)
    (hmax : off + (n - tot) ≤ MAXFILE * BSIZE)
    (hfull : ∀ m, off ≤ m → m < off + (n - tot) → blockAt s.disk x (m / BSIZE) ≠ 0) :
    ∃ l, (readiLoop sb ip dst n fuel off tot).eval (fsOp p) s
        = .ok ((if dst.all (n ≤ ·) ∨ tot = n then (n : Int) else -1, l), s) ∧
      (dst.all (n ≤ ·) → l = bytesAt s.disk x off (n - tot)) := by
  have hB : BSIZE = 1024 := rfl
  induction fuel generalizing off tot with
  | zero =>
    obtain rfl : tot = n := by
      omega
    refine ⟨[], ?_, fun _ => ?_⟩
    · rw [readiLoop, if_pos (.inr rfl)]
      rfl
    · rw [Nat.sub_self]
      rfl
  | succ fuel ih =>
    rw [readiLoop]
    by_cases hlt : tot < n
    · have hne := hfull off (Nat.le_refl _) (by omega)
      have hbn : off / BSIZE < MAXFILE := by
        simp only [MAXFILE, NDIRECT, NINDIRECT, BSIZE] at hmax ⊢
        omega
      rw [if_pos hlt, Prog.bind_def, Prog.eval_bind, bmap_eval hx hbn hne]
      simp only [Except.bind, if_neg hne, Prog.bind_def, Prog.eval_bind, eval_bread, eval_getData]
      obtain ⟨m, hm⟩ : ∃ m, inBlock off (n - tot) = m := ⟨_, rfl⟩
      have hm' : m = min (n - tot) (BSIZE - off % BSIZE) := hm.symm
      rw [hm]
      have hmod : off % BSIZE < BSIZE := Nat.mod_lt _ (by decide)
      by_cases hdst : (dst.all (tot + m ≤ ·)) = false
      · -- the destination ends inside this block
        have hall : dst.all (n ≤ ·) = false := by
          cases dst with
          | none => cases hdst
          | some c =>
            simp only [Option.all_some, decide_eq_false_iff_not] at hdst ⊢
            omega
        refine ⟨[], ?_, fun h => by rw [hall] at h; cases h⟩
        rw [if_pos hdst, hall, if_neg (by simp; omega)]
        rfl
      · have hstep := ih (off + m) (tot + m) ?_ (by omega) (by omega) ?_
        · obtain ⟨l, hl, hlb⟩ := hstep
          refine ⟨bytesAt s.disk x off m ++ l, ?_, fun hall => ?_⟩
          · rw [if_neg hdst]
            simp only [Prog.eval_bind, eval_brelse, Except.bind, hl]
            rw [slice_eq_bytesAt (by omega)]
            have hiff : (dst.all (n ≤ ·) = true ∨ tot + m = n)
                ↔ (dst.all (n ≤ ·) = true ∨ tot = n) := by
              constructor
              · rintro (h | h)
                · exact .inl h
                · subst h
                  rw [Bool.not_eq_false] at hdst
                  exact .inl hdst
              · rintro (h | h)
                · exact .inl h
                · omega
            simp only [hiff]
            rfl
          · rw [hlb hall, bytesAt_append]
            congr 1
            omega
        · intro hlt'
          rw [hB] at *
          omega
        · intro q hq hq'
          exact hfull q (by omega) (by omega)
    · obtain rfl : tot = n := by omega
      refine ⟨[], ?_, fun _ => ?_⟩
      · rw [if_neg hlt, if_pos (.inr rfl)]
        rfl
      · rw [Nat.sub_self]
        rfl

variable {off n : UInt32}

/-- `off + n < off` is the test for overflow. -/
theorem toNat_add_of_not_lt (h : ¬ off + n < off) : (off + n).toNat = off.toNat + n.toNat := by
  rw [UInt32.not_lt, UInt32.le_iff_toNat_le, UInt32.toNat_add] at h
  rw [UInt32.toNat_add]
  have := n.toNat_lt
  omega

theorem readi_eval (sb : Super) (p : ProcPtr) (dst : Option Nat) (hx : (s.itable ip).din = x)
    (hmax : x.size.toNat ≤ MAXFILE * BSIZE)
    (hfull : ∀ m, off.toNat ≤ m → m < off.toNat + readLen x off n →
      blockAt s.disk x (m / BSIZE) ≠ 0) : ∃ l, (readi sb ip dst off n).eval (fsOp p) s
        = .ok ((if dst.all (readLen x off n ≤ ·) ∨ readLen x off n = 0 then (readLen x off n : Int)
            else -1, l), s) ∧
      (dst.all (readLen x off n ≤ ·) → l = bytesAt s.disk x off.toNat (readLen x off n)) := by
  rw [readi]
  simp only [Prog.bind_def, Prog.eval_bind, eval_din, Except.bind, hx]
  by_cases hc : x.size < off ∨ off + n < off
  · have h0 : readLen x off n = 0 := if_pos hc
    rw [if_pos hc, h0]
    exact ⟨[], by rw [if_pos (.inr rfl)]; rfl, fun _ => rfl⟩
  · have hlen : readLen x off n = min n.toNat (x.size.toNat - off.toNat) := if_neg hc
    have hoff : off.toNat ≤ x.size.toNat := by
      rw [not_or, UInt32.not_lt] at hc
      exact UInt32.le_iff_toNat_le.mp hc.1
    have hadd := toNat_add_of_not_lt fun h => hc (.inr h)
    have hn : (if x.size < off + n then x.size - off else n).toNat = readLen x off n := by
      split
      · next h =>
          rw [UInt32.lt_iff_toNat_lt, hadd] at h
          rw [UInt32.toNat_sub_of_le _ _ (UInt32.le_iff_toNat_le.mpr hoff)]
          omega
      · next h =>
          rw [UInt32.lt_iff_toNat_lt, hadd] at h
          omega
    rw [if_neg hc, hn]
    have hB : BSIZE = 1024 := rfl
    have hloop := readiLoop_eval (n := readLen x off n) sb p dst
      (readLen x off n / BSIZE + 2) off.toNat 0
      hx
    simp only [Nat.sub_zero, eq_comm (a := 0)] at hloop
    refine hloop (fun _ => ?_) (Nat.zero_le _) ?_ hfull
    · rw [hB]
      omega
    · rw [hlen]
      omega

/-- What a read of `n` bytes at `off` returns. -/
def window (l : List UInt8) (off n : Nat) : List UInt8 :=
  if 2 ^ 32 ≤ off + n then [] else (l.drop off).take n

theorem getElem?_bytesAt {d : Disk} (off n m : Nat) :
    (bytesAt d x off n)[m]? = if m < n then some (byteAt d x (off + m)) else none := by
  rw [bytesAt, List.getElem?_map]
  split
  · next h => rw [List.getElem?_range h, Option.map_some]
  · next h => rw [List.getElem?_eq_none (by rw [length_range]; omega), Option.map_none]

/-- The bytes that `readi` copies are those of the list that the file holds. -/
theorem bytesAt_window {d : Disk} {l : List UInt8} (hsize : x.size.toNat = l.length)
    (hbyte : ∀ m (h : m < l.length), byteAt d x m = l[m]) (off n : UInt32) :
    bytesAt d x off.toNat (readLen x off n) = window l off.toNat n.toNat := by
  have hlen : readLen x off n = if 2 ^ 32 ≤ off.toNat + n.toNat then 0 else
      min n.toNat (l.length - off.toNat) := by
    have := n.toNat_lt
    simp only [readLen, UInt32.lt_iff_toNat_lt, UInt32.toNat_add, hsize]
    split <;> split <;> omega
  rw [window, hlen]
  split
  · rfl
  · refine ext_getElem? fun m => ?_
    rw [getElem?_bytesAt, List.getElem?_take, List.getElem?_drop]
    by_cases hm : m < min n.toNat (l.length - off.toNat)
    · rw [if_pos hm, if_pos (by omega), hbyte _ (by omega), List.getElem?_eq_getElem (by omega)]
    · rw [if_neg hm]
      split
      · rw [List.getElem?_eq_none (by omega)]
      · rfl

theorem length_bytesAt {d : Disk} (off n : Nat) : (bytesAt d x off n).length = n := by
  rw [bytesAt, length_map, length_range]

/-- Into a buffer of the kernel. -/
theorem readi_kernel_eval (sb : Super) (p : ProcPtr) (off n : UInt32) (hx : (s.itable ip).din = x)
    (hmax : x.size.toNat ≤ MAXFILE * BSIZE)
    (hfull : ∀ m, off.toNat ≤ m → m < off.toNat + readLen x off n →
      blockAt s.disk x (m / BSIZE) ≠ 0) : (readi sb ip none off n).eval (fsOp p) s
      = .ok ((readLen x off n, bytesAt s.disk x off.toNat (readLen x off n)), s) := by
  obtain ⟨l, hl, hb⟩ := readi_eval sb p none hx hmax hfull
  rw [hl, hb rfl]
  simp

/-! ## Directories -/

/-- The directory has an entry `k`, and the block it is in. -/
structure Readable (d : Disk) (x : Dinode) (k : Nat) : Prop where
  size : 16 * k + 16 ≤ x.size.toNat
  block : blockAt d x (16 * k / BSIZE) ≠ 0

/-- Entry `k` is in use. -/
def inUse (d : Disk) (x : Dinode) (k : Nat) : Bool := (entryAt d x k).inum != 0

/-- Entry `k` is the one for `name`. -/
def isEntry (d : Disk) (x : Dinode) (name : Name) (k : Nat) : Bool :=
  inUse d x k && name == (entryAt d x k).name

theorem readDirent_eval {msg : String} (hx : (s.itable ip).din = x)
    (hmax : x.size.toNat ≤ MAXFILE * BSIZE) (hk : Readable s.disk x k) :
    (readDirent sb msg ip k).eval (fsOp p) s = .ok (entryAt s.disk x k, s) := by
  have hB : BSIZE = 1024 := rfl
  have hlt := x.size.toNat_lt
  have hsize := hk.size
  have hoff : (UInt32.ofNat (16 * k)).toNat = 16 * k :=
    UInt32.toNat_ofNat_of_lt' (by show 16 * k < 2 ^ 32; omega)
  have h16 : (16 : UInt32).toNat = 16 := rfl
  have hadd : (UInt32.ofNat (16 * k) + 16).toNat = 16 * k + 16 := by
    rw [UInt32.toNat_add, hoff, h16]
    omega
  have hc : ¬ (x.size < UInt32.ofNat (16 * k) ∨
      UInt32.ofNat (16 * k) + 16 < UInt32.ofNat (16 * k)) := by
    rw [UInt32.lt_iff_toNat_lt, UInt32.lt_iff_toNat_lt, hoff, hadd]
    omega
  have hlen : readLen x (UInt32.ofNat (16 * k)) 16 = 16 := by
    rw [readLen, if_neg hc, hoff, h16]
    omega
  have hread := readi_kernel_eval sb p (UInt32.ofNat (16 * k)) 16 hx hmax
    fun m hm hm' => by
      have hdiv : m / BSIZE = 16 * k / BSIZE := by
        rw [hB]
        omega
      rw [hdiv]
      exact hk.block
  rw [hlen, hoff] at hread
  rw [readDirent, Prog.bind_def, Prog.eval_bind, hread]
  rfl

variable {d : Disk} {name : Name} {ks : List Nat}

theorem dirlookupFrom_cons (hx : (s.itable ip).din = x) (hmax : x.size.toNat ≤ MAXFILE * BSIZE)
    (hk : Readable s.disk x k) : (dirlookupFrom sb ip name (k :: ks)).eval (fsOp p) s =
      if isEntry s.disk x name k then
        ((Mem.iget (entryAt s.disk x k).inum.toNat).eval (fsOp p) s).bind fun a =>
          .ok (some (a.1, k), a.2)
      else (dirlookupFrom sb ip name ks).eval (fsOp p) s := by
  rw [dirlookupFrom, Prog.bind_def, Prog.eval_bind, readDirent_eval hx hmax hk]
  simp only [Except.bind, isEntry, inUse]
  by_cases h0 : (entryAt s.disk x k).inum = 0
  · simp [h0]
  · by_cases hn : name = (entryAt s.disk x k).name
    · simp only [if_neg h0, if_pos hn, Prog.bind_def, Prog.eval_bind]
      simp [h0, hn]
      rfl
    · simp [h0, hn]

/-- Entries that do not match are passed over. -/
theorem dirlookupFrom_skip (hx : (s.itable ip).din = x) (hmax : x.size.toNat ≤ MAXFILE * BSIZE)
    {pre : List Nat} (hr : ∀ k ∈ pre, Readable s.disk x k)
    (hne : ∀ k ∈ pre, isEntry s.disk x name k = false) :
    (dirlookupFrom sb ip name (pre ++ ks)).eval (fsOp p) s
      = (dirlookupFrom sb ip name ks).eval (fsOp p) s := by
  induction pre with
  | nil => rfl
  | cons k pre ih =>
    rw [cons_append, dirlookupFrom_cons hx hmax (hr k (mem_cons_self ..)),
      hne k (mem_cons_self ..)]
    exact ih (fun j hj => hr j (mem_cons_of_mem _ hj)) fun j hj =>
      hne j (mem_cons_of_mem _ hj)

end

end Xv6.Fs
