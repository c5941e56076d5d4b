/-
# `Xv6.User.Memmove` — `memmove` of the kernel and of the user library

The two differ in how they choose the direction: the kernel copies downwards only when the
ranges overlap with the destination above the source, the user library whenever the source
is not above the destination.  The length is a `uint` in one and an `int` in the other.
Addresses are machine words and pointer arithmetic wraps.

**Proved here.**

  * both functions copy as if through a temporary, on ranges that do not wrap around
    (`memmove_copies`)
-/
import Mathlib.Algebra.Order.Ring.Nat

namespace Xv6.Memmove

open Function

abbrev Addr := BitVec 64

abbrev Mem := Addr → UInt8

/-! ## The code -/

/-- `while(n-- > 0) *d++ = *s++`. -/
def up : Nat → Addr → Addr → Mem → Mem
  | 0, _, _, m => m
  | n + 1, d, s, m => up n (d + 1) (s + 1) (update m d (m s))

/-- `while(n-- > 0) *--d = *--s`. -/
def down : Nat → Addr → Addr → Mem → Mem
  | 0, _, _, m => m
  | n + 1, d, s, m => down n (d - 1) (s - 1) (update m (d - 1) (m (s - 1)))

/-- `memmove` of `kernel/string.c`; `n` is a `uint`. -/
def kernelMemmove (dst src : Addr) (n : BitVec 32) (m : Mem) : Mem :=
  if n = 0 then m
  else if src < dst ∧ src + n.setWidth 64 > dst then
    down n.toNat (dst + n.setWidth 64) (src + n.setWidth 64) m
  else up n.toNat dst src m

/-- `memmove` of `user/ulib.c`; `n` is an `int`, and a negative one ends the loops at once. -/
def userMemmove (dst src : Addr) (n : BitVec 32) (m : Mem) : Mem :=
  if src > dst then up n.toInt.toNat dst src m
  else down n.toInt.toNat (dst + n.signExtend 64) (src + n.signExtend 64) m

/-! ## As if through a temporary -/

/-- The `n` bytes from `dst` on are those that were at `src`, all others as they were. -/
def copied (n : Nat) (dst src : Addr) (m : Mem) : Mem := fun a =>
  if (a - dst).toNat < n then m (src + (a - dst)) else m a

section

variable {n : Nat} {d s : Addr}

/-- Upwards, no byte of the source is overwritten before it is read. -/
theorem up_eq (hn : n < 2 ^ 64) (h : d = s ∨ n ≤ (d - s).toNat) (m : Mem) :
    up n d s m = copied n d s m := by
  induction n generalizing d s m with
  | zero => rfl
  | succ n ih =>
    rw [up, ih (by omega) (by bv_omega)]
    funext a
    by_cases ha : a = d
    · subst ha
      rw [copied, copied, if_neg (by bv_omega), if_pos (by bv_omega), update_self]
      congr 1
      bv_omega
    · rw [copied, copied, update_of_ne ha, show s + 1 + (a - (d + 1)) = s + (a - d) by bv_omega]
      by_cases hlt : (a - d).toNat < n + 1
      · rw [if_pos (by bv_omega), if_pos hlt, update_of_ne (by bv_omega)]
      · rw [if_neg (by bv_omega), if_neg hlt]

/-- Downwards, from the ends of the ranges. -/
theorem down_eq (hn : n < 2 ^ 64) (h : d = s ∨ n ≤ (s - d).toNat) (m : Mem) :
    down n (d + BitVec.ofNat 64 n) (s + BitVec.ofNat 64 n) m = copied n d s m := by
  induction n generalizing m with
  | zero => rfl
  | succ n ih =>
    have hpred : ∀ x : Addr, x + BitVec.ofNat 64 (n + 1) - 1 = x + BitVec.ofNat 64 n := by bv_omega
    rw [down, hpred, hpred, ih (by omega) (by bv_omega)]
    funext a
    rw [copied, copied]
    by_cases hlt : (a - d).toNat < n
    · rw [if_pos hlt, if_pos (by omega), update_of_ne (by bv_omega)]
    · rw [if_neg hlt]
      by_cases ha : a = d + BitVec.ofNat 64 n
      · subst ha
        rw [update_self, if_pos (by bv_omega)]
        congr 1
        bv_omega
      · rw [update_of_ne ha, if_neg (by bv_omega)]

end

variable {dst src : Addr} {n : BitVec 32}

theorem kernelMemmove_eq (hd : dst.toNat + n.toNat ≤ 2 ^ 64) (hs : src.toNat + n.toNat ≤ 2 ^ 64)
    (m : Mem) : kernelMemmove dst src n m = copied n.toNat dst src m := by
  have hw : n.setWidth 64 = BitVec.ofNat 64 n.toNat := by bv_omega
  unfold kernelMemmove
  split_ifs with h0 h
  · subst h0
    rfl
  · rw [hw] at h ⊢
    exact down_eq (by bv_omega) (by bv_omega) m
  · rw [hw] at h
    exact up_eq (by bv_omega) (by bv_omega) m

theorem userMemmove_eq (hn : 0 ≤ n.toInt) (hd : dst.toNat + n.toNat ≤ 2 ^ 64)
    (hs : src.toNat + n.toNat ≤ 2 ^ 64) (m : Mem) :
    userMemmove dst src n m = copied n.toNat dst src m := by
  have hmsb : n.msb = false := by
    rwa [BitVec.msb_eq_toInt, decide_eq_false_iff_not, Int.not_lt]
  have hint : n.toInt.toNat = n.toNat := by
    rw [BitVec.toInt_eq_toNat_of_msb hmsb]
    rfl
  have hw : n.signExtend 64 = BitVec.ofNat 64 n.toNat := by
    rw [BitVec.signExtend_eq_setWidth_of_msb_false hmsb]
    bv_omega
  unfold userMemmove
  rw [hint, hw]
  split_ifs with h
  · exact up_eq (by bv_omega) (by bv_omega) m
  · exact down_eq (by bv_omega) (by bv_omega) m

/-- On ranges that do not wrap around, `memmove` of the kernel leaves in the destination
what was in the source and all else as it was, and that of the user library does the same. -/
theorem memmove_copies (dst src : Addr) (n : BitVec 32) (m : Mem)
    (hd : dst.toNat + n.toNat ≤ 2 ^ 64) (hs : src.toNat + n.toNat ≤ 2 ^ 64) :
    (∀ i < n.toNat, kernelMemmove dst src n m (dst + BitVec.ofNat 64 i) =
      m (src + BitVec.ofNat 64 i)) ∧
    (∀ a : Addr, ¬ (dst.toNat ≤ a.toNat ∧ a.toNat < dst.toNat + n.toNat) →
      kernelMemmove dst src n m a = m a) ∧
    (0 ≤ n.toInt → userMemmove dst src n m = kernelMemmove dst src n m) := by
  rw [kernelMemmove_eq hd hs]
  refine ⟨fun i hi => ?_, fun a ha => ?_, fun hn => userMemmove_eq hn hd hs m⟩
  · rw [copied, if_pos (by bv_omega)]
    congr 1
    bv_omega
  · rw [copied, if_neg (by bv_omega)]

/-- Two bytes moved up by one: the second is not the copy of a copy. -/
theorem memmove_copies_two :
    userMemmove 1 0 2 (fun a => UInt8.ofNat a.toNat) 2 = 1 ∧
      kernelMemmove 1 0 2 (fun a => UInt8.ofNat a.toNat) 2 = 1 := by
  obtain ⟨h, -, heq⟩ := memmove_copies 1 0 2 (fun a => UInt8.ofNat a.toNat) (by decide) (by decide)
  rw [heq (by decide)]
  exact ⟨h 1 (by decide), h 1 (by decide)⟩

end Xv6.Memmove
