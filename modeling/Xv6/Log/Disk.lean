/-
# `Xv6.Log.Disk` — which block writes keep the disk meaningful

The four kinds of block writes that `commit` and the recovery make, each with
the reason why a crash right after it loses nothing and invents nothing.
-/
import Xv6.Log.Inv

namespace Xv6.Log

open Function

variable {L : Layout} {d c : BlockNo → Block} {i : Nat} {b : BlockNo} {lh : List BlockNo}
  {x : Block}

/-! ## The log area -/

theorem Layout.at_toNat (L : Layout) (hi : i < L.size) : (L.at i).toNat = L.start + i := by
  have := L.fits
  unfold Layout.at
  rw [UInt32.toNat_ofNat']
  omega

theorem Layout.at_inj (L : Layout) {j : Nat} (hi : i < L.size) (hj : j < L.size)
    (h : L.at i = L.at j) : i = j := by
  have := congrArg UInt32.toNat h
  rw [L.at_toNat hi, L.at_toNat hj] at this
  omega

theorem Layout.not_home_at (L : Layout) (hi : i < L.size) : ¬ L.Home (L.at i) := by
  unfold Layout.Home
  rw [L.at_toNat hi]
  omega

theorem Layout.Home.ne_at (hb : L.Home b) (hi : i < L.size) : b ≠ L.at i :=
  fun h => L.not_home_at hi (h ▸ hb)

/-! ## The header block -/

theorem hdrN_putHdr (x : Block) (h : lh.length ≤ LOGSIZE) : hdrN (putHdr x lh) = lh.length := by
  unfold hdrN putHdr
  rw [Bytes.u32_setU32s_ne (by omega), Bytes.u32_setU32_self (by decide)]
  have hl : lh.length < 2 ^ 31 := by
    have : LOGSIZE < 2 ^ 31 := by decide
    omega
  have : (UInt32.ofNat lh.length).toInt32.toInt = (BitVec.ofNat 32 lh.length).toInt := rfl
  rw [this, BitVec.toInt_ofNat', Int.bmod_eq_of_le] <;> omega

theorem hdrBlocks_putHdr (x : Block) (h : lh.length ≤ LOGSIZE) : hdrBlocks (putHdr x lh) = lh := by
  have hroom : 4 + 4 * lh.length ≤ BSIZE := by
    have : 4 + 4 * LOGSIZE ≤ BSIZE := by decide
    omega
  unfold hdrBlocks
  rw [hdrN_putHdr x h]
  refine List.ext_getElem (by simp) fun i hi hi' => ?_
  simp only [List.getElem_map, List.getElem_range]
  exact Bytes.u32_setU32s_get hroom hi'

/-! ## The writes -/

theorem hdrBlocks_nil (h : hdrN x = 0) : hdrBlocks x = [] := by
  simp [hdrBlocks, h]

/-- While the header is empty the log blocks mean nothing. -/
theorem OnDisk.fill (h : OnDisk L d c) (h0 : hdrN (d (L.at 0)) = 0)
    (hi : i + 1 < L.size) (x : Block) : OnDisk L (update d (L.at (i + 1)) x) c := by
  have hne : L.at 0 ≠ L.at (i + 1) := fun he => by
    have := L.at_inj L.pos hi he
    omega
  have hnil := hdrBlocks_nil h0
  refine ⟨?_, ?_, ?_, ?_, ?_, ?_⟩ <;> rw [update_of_ne hne]
  · exact h.short
  · exact h.room
  · exact h.nodup
  · exact h.home
  · simp [hnil]
  · intro b hb hn
    rw [update_of_ne (hb.ne_at hi)]
    exact h.placed b hb hn

/-- The header goes to disk: what the log blocks hold is now the contents. -/
theorem OnDisk.commit {c' : BlockNo → Block} (h : OnDisk L d c)
    (h0 : hdrN (d (L.at 0)) = 0) (hlen : lh.length ≤ LOGSIZE) (hroom : lh.length < L.size)
    (hnodup : lh.Nodup) (hhome : ∀ b ∈ lh, L.Home b)
    (hlog : ∀ i (hi : i < lh.length), d (L.at (i + 1)) = c' lh[i])
    (hrest : ∀ b, b ∉ lh → c' b = c b) : OnDisk L (update d (L.at 0) (putHdr x lh)) c' := by
  have hnil := hdrBlocks_nil h0
  refine ⟨?_, ?_, ?_, ?_, ?_, ?_⟩ <;> simp only [update_self]
  · rw [hdrN_putHdr x hlen]; exact_mod_cast hlen
  · rwa [hdrBlocks_putHdr x hlen]
  · rwa [hdrBlocks_putHdr x hlen]
  · rwa [hdrBlocks_putHdr x hlen]
  · intro i hi
    simp only [hdrBlocks_putHdr x hlen] at hi ⊢
    have hne : L.at (i + 1) ≠ L.at 0 := fun he => by
      have := L.at_inj (by omega) L.pos he
      omega
    rw [update_of_ne hne]
    exact hlog i hi
  · intro b hb hn
    rw [hdrBlocks_putHdr x hlen] at hn
    rw [update_of_ne (hb.ne_at L.pos), hrest b hn]
    exact h.placed b hb (by rw [hnil]; exact List.not_mem_nil)

/-- A block that the header names is put in place. -/
theorem OnDisk.install (h : OnDisk L d c) (hb : b ∈ hdrBlocks (d (L.at 0)))
    (x : Block) : OnDisk L (update d b x) c := by
  have hh := h.home b hb
  have hne : L.at 0 ≠ b := (hh.ne_at L.pos).symm
  refine ⟨?_, ?_, ?_, ?_, ?_, ?_⟩ <;> simp only [update_of_ne hne]
  · exact h.short
  · exact h.room
  · exact h.nodup
  · exact h.home
  · intro i hi
    have hroom := h.room
    rw [update_of_ne (hh.ne_at (by omega)).symm]
    exact h.logged i hi
  · intro b' hb' hn
    have hne' : b' ≠ b := by rintro rfl; exact hn hb
    rw [update_of_ne hne']
    exact h.placed b' hb' hn

/-- The header is erased once every block it names is in place. -/
theorem OnDisk.clear (h : OnDisk L d c) (x : Block)
    (hdone : ∀ b ∈ hdrBlocks (d (L.at 0)), d b = c b) :
    OnDisk L (update d (L.at 0) (putHdr x [])) c := by
  have hn : hdrN (putHdr x []) = 0 := hdrN_putHdr x (Nat.zero_le _)
  have hb : hdrBlocks (putHdr x []) = [] := hdrBlocks_nil hn
  refine ⟨?_, ?_, ?_, ?_, ?_, ?_⟩ <;> simp only [update_self]
  · rw [hn]; decide
  · rw [hb]; exact L.pos
  · rw [hb]; exact List.nodup_nil
  · simp [hb]
  · simp [hb]
  · intro b hh _
    rw [update_of_ne (hh.ne_at L.pos)]
    by_cases hm : b ∈ hdrBlocks (d (L.at 0))
    · exact hdone b hm
    · exact h.placed b hh hm

end Xv6.Log
