/-
# `Xv6.Fs.Write` — what `writei` does to one inode

The loop of `writei` adds blocks where there are none and stores the bytes of the
source in them; it stops early when the disk is full.  After it the size and the
addresses are written back.
-/
import Mathlib.Data.List.GetD
import Xv6.Fs.Edit

namespace Xv6.Fs

open Machine Function

section
variable {sb : Super} {ino : Nat → Dinode} {i : Nat} {q q' : Part} {b j k : Nat} {v : Block}

/-! ## Blocks of the file -/

/-- A block of the file is stored; the addresses stay as they are. -/
theorem Owns.slot_data (h : Owns sb ino i q) (hk : k ≠ NDIRECT)
    (hs : slot q.disk q.din k ≠ 0) (v : Block) (m : Nat) :
    slot (update q.disk (slot q.disk q.din k).toNat v) q.din m = slot q.disk q.din m := by
  have := congrFun (h.refs_data hk hs v) (i, m)
  have ht : (edited ino i q.din i).type ≠ 0 := by
    rw [edited, update_self]
    exact h.type
  rw [refs_eq h.lt ht, edited, update_self, h.refs_self] at this
  exact UInt32.toNat_inj.mp this

variable {n off tot m : Nat} {src : List UInt8}

theorem Owns.put (h : Owns sb ino i q) (hs : blockAt q.disk q.din n ≠ 0) (v : Block) :
    Edit sb ino i q (q.put (blockAt q.disk q.din n).toNat v) := by
  obtain ⟨hm, -⟩ := h.data hs
  have hrefs : (q.put (blockAt q.disk q.din n).toNat v).refs sb ino i = q.refs sb ino i :=
    h.refs_data slotOf_ne_ind hs v
  refine ⟨⟨h.layout, h.lt, h.type, ?_⟩, rfl, Apart.refl.own h hs⟩
  rw [hrefs]
  refine h.exact.congr fun c hc => ?_
  have : used sb (q.put (blockAt q.disk q.din n).toNat v).disk c = used sb q.disk c :=
    used_update_data h.layout hc hm
  rw [this]

theorem Owns.blockAt_data (h : Owns sb ino i q) (hs : blockAt q.disk q.din n ≠ 0) (v : Block)
    (m : Nat) :
    blockAt (update q.disk (blockAt q.disk q.din n).toNat v) q.din m
      = blockAt q.disk q.din m :=
  h.slot_data slotOf_ne_ind hs v (slotOf m)

theorem content_put (h : Owns sb ino i q) (hs : blockAt q.disk q.din n ≠ 0) (v : Block) (m : Nat) :
    content (update q.disk (blockAt q.disk q.din n).toNat v) q.din m
      = if m / BSIZE = n then v.byte (m % BSIZE) else content q.disk q.din m := by
  rw [content, byteAt, h.blockAt_data hs]
  by_cases hm : m / BSIZE = n
  · rw [if_pos hm, hm, if_neg hs, update_self]
  · rw [if_neg hm, content]
    split
    · rfl
    · next h0 =>
        have hne : (blockAt q.disk q.din (m / BSIZE)).toNat ≠ (blockAt q.disk q.din n).toNat := by
          intro he
          have := (h.data hs).2 i (slotOf (m / BSIZE)) (by rwa [h.refs_self])
          exact hm (slotOf_inj (Prod.mk.inj this).2)
        rw [update_of_ne hne, byteAt]

/-- What a piece of the loop of `writei` does that goes from `off` to `off'`. -/
structure Written (src : List UInt8) (n off tot off' tot' : Nat) (q q' : Part) : Prop where
  count : tot ≤ tot' ∧ tot' ≤ n ∧ off' = off + (tot' - tot)
  size : q'.din.size = q.din.size
  keep : ∀ b, blockAt q.disk q.din b ≠ 0 → blockAt q'.disk q'.din b = blockAt q.disk q.din b
  cover : ∀ b, b * BSIZE < off' → blockAt q'.disk q'.din b ≠ 0
  bytes : ∀ m, content q'.disk q'.din m =
    if off ≤ m ∧ m < off' then src.getD (tot + (m - off)) 0 else content q.disk q.din m
  all : (∀ m, off ≤ m → m < off + (n - tot) → blockAt q.disk q.din (m / BSIZE) ≠ 0) → tot' = n
  log : q.lh ⊆ q'.lh
  logged : ∀ m, off ≤ m → m < off' → (blockAt q'.disk q'.din (m / BSIZE)).toNat ∈ q'.lh

/-- The loop stops where it is. -/
theorem Written.stop (hG : Grown q q') (htot : tot ≤ n)
    (hcov : ∀ b, b * BSIZE < off → blockAt q.disk q.din b ≠ 0)
    (hall : (∀ m, off ≤ m → m < off + (n - tot) → blockAt q.disk q.din (m / BSIZE) ≠ 0) →
      tot = n) : Written src n off tot off tot q q' where
  count := ⟨Nat.le_refl _, htot, by omega⟩
  size := hG.size
  keep := hG.keep
  cover b hb := by rw [hG.keep b (hcov b hb)]; exact hcov b hb
  bytes m := by rw [hG.content, if_neg (by omega)]
  all := hall
  log := hG.log
  logged m hm hm' := absurd hm' (Nat.not_lt.mpr hm)

/-! ## The loop -/

/-- A block of the file takes `m` bytes of the source from `tot` on. -/
theorem content_patch (h : Owns sb ino i q) (hs : blockAt q.disk q.din (off / BSIZE) ≠ 0)
    (hm : off % BSIZE + m ≤ BSIZE)
    (hsrc : tot + m ≤ src.length) (c : Nat) :
    content (update q.disk (blockAt q.disk q.din (off / BSIZE)).toNat
        ((q.disk (blockAt q.disk q.din (off / BSIZE)).toNat).patch (off % BSIZE)
          ((src.drop tot).take m))) q.din c
      = if off ≤ c ∧ c < off + m then src.getD (tot + (c - off)) 0 else content q.disk q.din c := by
  have hB : BSIZE = 1024 := rfl
  have hlen : ((src.drop tot).take m).length = m := by
    rw [List.length_take, List.length_drop]
    omega
  rw [content_put h hs]
  by_cases hc : off ≤ c ∧ c < off + m
  · have hdiv : c / BSIZE = off / BSIZE := by rw [hB] at hm ⊢; omega
    have hmod : c % BSIZE = off % BSIZE + (c - off) := by rw [hB] at hm ⊢; omega
    have hlt : c - off < ((src.drop tot).take m).length := by omega
    rw [if_pos hc, if_pos hdiv, hmod, Bytes.byte_patch_get (by omega) hlt, List.getElem_take,
      List.getElem_drop, List.getD_eq_getElem _ _ (by omega)]
  · rw [if_neg hc]
    split
    · next hdiv =>
        have hmod : c % BSIZE < off % BSIZE ∨ off % BSIZE + m ≤ c % BSIZE := by
          rw [hB] at hdiv hm ⊢
          omega
        rw [Bytes.byte_patch_ne (by rw [hlen]; exact hmod), content, byteAt, hdiv, if_neg hs]
    · rfl

/-- One round of the loop, and what is behind it. -/
theorem Written.round {off' tot' : Nat} {q1 : Part} (hG : Grown q q1) (h : Owns sb ino i q1)
    (hs : blockAt q1.disk q1.din (off / BSIZE) ≠ 0) (hm : off % BSIZE + m ≤ BSIZE)
    (hmn : tot + m ≤ n) (hsrc : tot + m ≤ src.length)
    (hW : Written src n (off + m) (tot + m) off' tot'
      (q1.put (blockAt q1.disk q1.din (off / BSIZE)).toNat
        ((q1.disk (blockAt q1.disk q1.din (off / BSIZE)).toNat).patch (off % BSIZE)
          ((src.drop tot).take m))) q') : Written src n off tot off' tot' q q' := by
  obtain ⟨htot, hn, hoff⟩ := hW.count
  have hB : BSIZE = 1024 := rfl
  have hput : ∀ v b, blockAt (update q1.disk (blockAt q1.disk q1.din (off / BSIZE)).toNat v) q1.din b
      = blockAt q1.disk q1.din b := h.blockAt_data hs
  refine ⟨⟨by omega, hn, by omega⟩, hW.size.trans hG.size, fun b hb => ?_, hW.cover, fun c => ?_,
    fun hfull => hW.all fun c h1 h2 => ?_, fun _ hb => hW.log (subset_put (hG.log hb)),
    fun c h1 h2 => ?_⟩
  · have hb' : blockAt q1.disk q1.din b ≠ 0 := by rwa [hG.keep b hb]
    rw [← hG.keep b hb, ← hput _ b]
    exact hW.keep b (by rwa [Part.put, hput])
  · rw [hW.bytes, Part.put, content_patch h hs hm hsrc, hG.content]
    by_cases h1 : off ≤ c ∧ c < off + m
    · rw [if_neg (by omega), if_pos h1, if_pos (by omega)]
    · rw [if_neg h1]
      by_cases h2 : off + m ≤ c ∧ c < off'
      · rw [if_pos h2, if_pos (by omega)]
        congr 1
        omega
      · rw [if_neg h2, if_neg (by omega)]
  · have hc := hfull c (by omega) (by omega)
    rwa [Part.put, hput, hG.keep _ hc]
  · by_cases hc : off + m ≤ c
    · exact hW.logged c hc h2
    · -- the block of this round
      have hdiv : c / BSIZE = off / BSIZE := by rw [hB] at hm ⊢; omega
      have hthere := hW.keep (off / BSIZE) (by rwa [Part.put, hput])
      rw [hdiv, hthere, Part.put, hput]
      exact hW.log (mem_absorb.mpr (.inr rfl))

variable {s : Sys} (p : ProcPtr) (ip : Ptr)

theorem writeiLoop_edit (hn : n ≤ src.length) (fuel off tot : Nat) (h : Owns sb ino i q)
    (hfuel : tot < n → off % BSIZE + (n - tot) ≤ fuel * BSIZE) (htot : tot ≤ n)
    (hmax : off + (n - tot) ≤ MAXFILE * BSIZE)
    (hcov : ∀ b, b * BSIZE < off → blockAt q.disk q.din b ≠ 0) :
    ∃ tot' off' q', (writeiLoop sb ip src n fuel off tot).eval (endless p) (s.edit ip q)
        = .ok ((tot', off'), s.edit ip q') ∧ Edit sb ino i q q' ∧
      Written src n off tot off' tot' q q' ∧ (tot' < n → Full sb q'.disk) := by
  have hB : BSIZE = 1024 := rfl
  induction fuel generalizing off tot q with
  | zero =>
    obtain rfl : tot = n := by
      omega
    exact ⟨tot, off, q, rfl, Edit.refl h, .stop (Grown.refl q) htot hcov fun _ => rfl,
      fun hlt => absurd hlt (Nat.lt_irrefl _)⟩
  | succ fuel ih =>
    rw [writeiLoop]
    by_cases hlt : tot < n
    · have hbn : off / BSIZE < MAXFILE := by
        simp only [MAXFILE, NDIRECT, NINDIRECT, BSIZE] at hmax ⊢
        omega
      obtain ⟨r, q1, he, hE, hG, hr, hfull⟩ := bmap_edit p ip h hbn
      rw [if_pos hlt, Prog.eval_seq he]
      by_cases h0 : r = 0
      · -- the disk is full
        rw [if_pos h0]
        refine ⟨tot, off, q1, rfl, hE, .stop hG htot hcov fun hall => ?_, fun _ => hfull h0⟩
        have hthere := hall off (Nat.le_refl _) (by omega)
        have he' : (bmap sb ip (off / BSIZE)).eval (endless p) (s.edit ip q)
            = .ok (blockAt q.disk q.din (off / BSIZE), s.edit ip q) :=
          bmap_eval (by rw [Sys.itable_edit_self]) hbn hthere
        rw [he] at he'
        simp only [Except.ok.injEq, Prod.mk.injEq] at he'
        exact absurd (he'.1.symm.trans h0) hthere
      · obtain rfl := (hr h0).symm
        rw [if_neg h0, Prog.eval_seq eval_bread, Prog.eval_seq eval_getData_edit]
        obtain ⟨m, hm⟩ : ∃ m, inBlock off (n - tot) = m := ⟨_, rfl⟩
        have hm' : m = min (n - tot) (BSIZE - off % BSIZE) := hm.symm
        have hmod : off % BSIZE < BSIZE := Nat.mod_lt _ (by decide)
        rw [hm]
        rw [if_neg (by omega), eval_put, Prog.eval_seq eval_brelse]
        have hput := hE.owns.put h0
          ((q1.disk (blockAt q1.disk q1.din (off / BSIZE)).toNat).patch (off % BSIZE)
            ((src.drop tot).take m))
        have hround := ih (off + m) (tot + m) hput.owns ?_ (by omega) (by omega) ?_
        · obtain ⟨tot', off', q', he', hE', hW', hfull'⟩ := hround
          exact ⟨tot', off', q', he', (hE.trans hput).trans hE',
            .round hG hE.owns h0 (by omega) (by omega) (by omega) hW', hfull'⟩
        · intro hlt'
          rw [hB] at *
          omega
        · intro b hb
          show blockAt (update _ _ _) q1.din _ ≠ 0
          rw [hE.owns.blockAt_data h0]
          by_cases hlow : b * BSIZE < off
          · rw [hG.keep b (hcov b hlow)]
            exact hcov b hlow
          · have : b = off / BSIZE := by
              rw [hB] at *
              omega
            rwa [this]
    · obtain rfl : tot = n := by omega
      rw [if_neg hlt]
      exact ⟨tot, off, q, rfl, Edit.refl h, .stop (Grown.refl q) htot hcov fun _ => rfl,
        fun hlt => absurd hlt (Nat.lt_irrefl _)⟩

/-! ## writei -/

/-- `if(off > ip->size) ip->size = off`. -/
def Part.extend (q : Part) (off : Nat) : Part :=
  if q.din.size.toNat < off then q.setDin (q.din.setSize (UInt32.ofNat off)) else q

/-- The copy in memory is written to inode `i` on disk. -/
def Part.iupdate (sb : Super) (i : Nat) (q : Part) : Part :=
  q.put (sb.IBLOCK i) (putDinode (q.disk (sb.IBLOCK i)) (i % IPB) q.din)

theorem disk_iupdate : (q.iupdate sb i).disk = setDinode sb q.disk i q.din := rfl

@[simp] theorem din_iupdate : (q.iupdate sb i).din = q.din := rfl

@[simp] theorem disk_extend (off : Nat) : (q.extend off).disk = q.disk := by
  unfold Part.extend
  split <;> rfl

@[simp] theorem addrs_extend (off : Nat) : (q.extend off).din.addrs = q.din.addrs := by
  unfold Part.extend
  split <;> rfl

@[simp] theorem type_extend (off : Nat) : (q.extend off).din.type = q.din.type := by
  unfold Part.extend
  split <;> rfl

theorem size_extend (hoff : off < 2 ^ 32) :
    (q.extend off).din.size.toNat = max q.din.size.toNat off := by
  unfold Part.extend
  split
  · next h =>
      rw [Nat.max_eq_right (Nat.le_of_lt h)]
      exact UInt32.toNat_ofNat_of_lt' hoff
  · next h => rw [Nat.max_eq_left (Nat.le_of_not_lt h)]

theorem iupdate_edit : (iupdate sb ip).eval (endless p) (s.edit ip q)
    = .ok ((), s.edit ip (q.iupdate sb (s.itable ip).inum)) := by
  have hinum : (Mem.inum ip).eval (endless p) (s.edit ip q)
      = .ok ((s.itable ip).inum, s.edit ip q) := by
    rw [eval_inum, Sys.itable_edit_self]
  rw [iupdate, Prog.eval_seq hinum, Prog.eval_seq eval_bread, Prog.eval_seq eval_getData_edit,
    Prog.eval_seq eval_din_edit, eval_put, eval_brelse]
  rfl

/-- A write that goes beyond the end of the file, or of what a file can be. -/
theorem writei_refused {off n : UInt32} (h : (s.itable ip).din.size.toNat < off.toNat ∨
    MAXFILE * BSIZE < off.toNat + n.toNat) :
    (writei sb ip src off n).eval (fsOp p) s = .ok (-1, s) := by
  rw [writei]
  simp only [Prog.bind_def, Prog.eval_bind, eval_din, Except.bind]
  by_cases hc : (s.itable ip).din.size < off ∨ off + n < off
  · rw [if_pos hc]
    rfl
  · have hadd := toNat_add_of_not_lt fun h => hc (.inr h)
    have hmax : MAXFILE * BSIZE < (off + n).toNat := by
      rw [hadd]
      refine h.resolve_left fun hlt => hc (.inl ?_)
      rwa [UInt32.lt_iff_toNat_lt]
    rw [if_neg hc, if_pos hmax]
    rfl

theorem writei_edit (hi : (s.itable ip).inum = i) {off n : UInt32} (h : Owns sb ino i q)
    (hn : n.toNat ≤ src.length) (hsize : off.toNat ≤ q.din.size.toNat)
    (hmax : off.toNat + n.toNat ≤ MAXFILE * BSIZE)
    (hcov : ∀ b, b * BSIZE < off.toNat → blockAt q.disk q.din b ≠ 0) :
    ∃ (k : Nat) (q1 : Part), (writei sb ip src off n).eval (endless p) (s.edit ip q)
        = .ok ((k : Int), s.edit ip ((q1.extend (off.toNat + k)).iupdate sb i)) ∧
      Edit sb ino i q q1 ∧ Written src n.toNat off.toNat 0 (off.toNat + k) k q q1 ∧
      (k < n.toNat → Full sb q1.disk) := by
  have hB : BSIZE = 1024 := rfl
  have hbig : MAXFILE * BSIZE < 2 ^ 32 := by decide
  have hadd : (off + n).toNat = off.toNat + n.toNat := by
    rw [UInt32.toNat_add, Nat.mod_eq_of_lt (by omega)]
  have hc : ¬ (q.din.size < off ∨ off + n < off) := by
    rw [UInt32.lt_iff_toNat_lt, UInt32.lt_iff_toNat_lt, hadd]
    omega
  have hc' : ¬ MAXFILE * BSIZE < (off + n).toNat := by omega
  obtain ⟨k, off', q1, he, hE, hW, hfull⟩ := writeiLoop_edit p ip hn (n.toNat / BSIZE + 2)
    off.toNat 0 h (fun _ => by rw [hB]; omega) (Nat.zero_le _) (by omega) hcov
  obtain rfl : off' = off.toNat + k := by
    have := hW.count.2.2
    omega
  refine ⟨k, q1, ?_, hE, hW, hfull⟩
  rw [writei, Prog.eval_seq eval_din_edit]
  rw [if_neg hc, if_neg hc', Prog.eval_seq he]
  rw [Prog.eval_seq eval_din_edit]
  by_cases hx : q1.din.size.toNat < off.toNat + k
  · rw [if_pos hx, Part.extend, if_pos hx, Prog.eval_seq eval_setDin_edit,
      Prog.eval_seq (iupdate_edit p ip), hi]
    rfl
  · rw [if_neg hx, Part.extend, if_neg hx, Prog.eval_seq (iupdate_edit p ip), hi]
    rfl

end

end Xv6.Fs
