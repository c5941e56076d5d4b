/-
# `Xv6.Lib.Bytes` — a block of bytes, and little-endian words in it

`Bytes n` is `n` bytes; they are addressed by `Nat` offsets, reading 0 and
ignoring a write outside.  A word accessor depends on the bytes under it and on
no others, and a store changes no others: every lemma about two accesses at
different places comes from these two facts.
-/
import Mathlib.Data.UInt
import Mathlib.Tactic.Ring

def Bytes (n : Nat) : Type := Fin n → UInt8

namespace Bytes

variable {n : Nat} {b c : Bytes n} {i j off off' : Nat} {v : UInt32} {vs : List UInt32}
  {l : List UInt8}

def zero (n : Nat) : Bytes n := fun _ => 0

def byte (b : Bytes n) (i : Nat) : UInt8 := if h : i < n then b ⟨i, h⟩ else 0

def setByte (b : Bytes n) (i : Nat) (v : UInt8) : Bytes n := fun j => if j.val = i then v else b j

@[simp] theorem byte_zero (i : Nat) : (zero n).byte i = 0 := by
  unfold byte zero
  split <;> rfl

theorem byte_setByte_self {v : UInt8} (h : i < n) : (b.setByte i v).byte i = v := by
  simp [byte, setByte, h]

theorem byte_setByte_ne {v : UInt8} (h : j ≠ i) : (b.setByte i v).byte j = b.byte j := by
  unfold byte
  split
  · simp [setByte, h]
  · rfl

/-! ## Words -/

def u16 (b : Bytes n) (off : Nat) : UInt16 :=
  UInt16.ofNat ((b.byte off).toNat + 256 * (b.byte (off + 1)).toNat)

def setU16 (b : Bytes n) (off : Nat) (v : UInt16) : Bytes n :=
  (b.setByte off (UInt8.ofNat v.toNat)).setByte (off + 1) (UInt8.ofNat (v.toNat / 256))

def u32 (b : Bytes n) (off : Nat) : UInt32 :=
  UInt32.ofNat ((b.byte off).toNat + 256 * (b.byte (off + 1)).toNat
    + 65536 * (b.byte (off + 2)).toNat + 16777216 * (b.byte (off + 3)).toNat)

def setU32 (b : Bytes n) (off : Nat) (v : UInt32) : Bytes n :=
  (((b.setByte off (UInt8.ofNat v.toNat)).setByte (off + 1) (UInt8.ofNat (v.toNat / 256))).setByte
    (off + 2) (UInt8.ofNat (v.toNat / 65536))).setByte (off + 3) (UInt8.ofNat (v.toNat / 16777216))

theorem u16_congr (h : ∀ i, off ≤ i → i < off + 2 → b.byte i = c.byte i) :
    b.u16 off = c.u16 off := by
  simp only [u16, h off (by omega) (by omega), h (off + 1) (by omega) (by omega)]

theorem u32_congr (h : ∀ i, off ≤ i → i < off + 4 → b.byte i = c.byte i) :
    b.u32 off = c.u32 off := by
  simp only [u32, h off (by omega) (by omega), h (off + 1) (by omega) (by omega),
    h (off + 2) (by omega) (by omega), h (off + 3) (by omega) (by omega)]

theorem byte_setU16_ne {v : UInt16} (h : i < off ∨ off + 2 ≤ i) :
    (b.setU16 off v).byte i = b.byte i := by
  unfold setU16
  rw [byte_setByte_ne (by omega), byte_setByte_ne (by omega)]

theorem byte_setU32_ne (h : i < off ∨ off + 4 ≤ i) : (b.setU32 off v).byte i = b.byte i := by
  unfold setU32
  rw [byte_setByte_ne (by omega), byte_setByte_ne (by omega), byte_setByte_ne (by omega),
    byte_setByte_ne (by omega)]

theorem u16_setU16_self {v : UInt16} (h : off + 2 ≤ n) : (b.setU16 off v).u16 off = v := by
  have h0 : (b.setU16 off v).byte off = UInt8.ofNat v.toNat := by
    unfold setU16
    rw [byte_setByte_ne (by omega), byte_setByte_self (by omega)]
  have h1 : (b.setU16 off v).byte (off + 1) = UInt8.ofNat (v.toNat / 256) := by
    unfold setU16
    rw [byte_setByte_self (by omega)]
  have hv : v.toNat < 65536 := v.toNat_lt
  apply UInt16.toNat_inj.mp
  simp only [u16, h0, h1, UInt16.toNat_ofNat', UInt8.toNat_ofNat']
  omega

theorem u32_setU32_self (h : off + 4 ≤ n) : (b.setU32 off v).u32 off = v := by
  have h0 : (b.setU32 off v).byte off = UInt8.ofNat v.toNat := by
    unfold setU32
    rw [byte_setByte_ne (by omega), byte_setByte_ne (by omega), byte_setByte_ne (by omega),
      byte_setByte_self (by omega)]
  have h1 : (b.setU32 off v).byte (off + 1) = UInt8.ofNat (v.toNat / 256) := by
    unfold setU32
    rw [byte_setByte_ne (by omega), byte_setByte_ne (by omega), byte_setByte_self (by omega)]
  have h2 : (b.setU32 off v).byte (off + 2) = UInt8.ofNat (v.toNat / 65536) := by
    unfold setU32
    rw [byte_setByte_ne (by omega), byte_setByte_self (by omega)]
  have h3 : (b.setU32 off v).byte (off + 3) = UInt8.ofNat (v.toNat / 16777216) := by
    unfold setU32
    rw [byte_setByte_self (by omega)]
  have hv : v.toNat < 4294967296 := v.toNat_lt
  apply UInt32.toNat_inj.mp
  simp only [u32, h0, h1, h2, h3, UInt32.toNat_ofNat', UInt8.toNat_ofNat']
  omega

theorem u32_setU32_ne (h : off + 4 ≤ off' ∨ off' + 4 ≤ off) :
    (b.setU32 off v).u32 off' = b.u32 off' :=
  u32_congr fun i _ _ => byte_setU32_ne (by omega)

theorem u16_setU16_ne {v : UInt16} (h : off + 2 ≤ off' ∨ off' + 2 ≤ off) :
    (b.setU16 off v).u16 off' = b.u16 off' :=
  u16_congr fun i _ _ => byte_setU16_ne (by omega)

theorem u16_setU32_ne (h : off + 4 ≤ off' ∨ off' + 2 ≤ off) :
    (b.setU32 off v).u16 off' = b.u16 off' :=
  u16_congr fun i _ _ => byte_setU32_ne (by omega)

@[simp] theorem u16_zero (off : Nat) : (zero n).u16 off = 0 := by simp [u16]

@[simp] theorem u32_zero (off : Nat) : (zero n).u32 off = 0 := by simp [u32]

/-! ## An array of words -/

/-- Store the words `vs` one after the other from `off` on. -/
def setU32s (b : Bytes n) (off : Nat) : List UInt32 → Bytes n
  | [] => b
  | v :: vs => (b.setU32 off v).setU32s (off + 4) vs

theorem byte_setU32s_ne (h : i < off ∨ off + 4 * vs.length ≤ i) :
    (b.setU32s off vs).byte i = b.byte i := by
  induction vs generalizing b off with
  | nil => rfl
  | cons v vs ih =>
    simp only [List.length_cons] at h
    rw [setU32s, ih (by omega), byte_setU32_ne (by omega)]

theorem u16_setU32s_ne (h : off' + 2 ≤ off ∨ off + 4 * vs.length ≤ off') :
    (b.setU32s off vs).u16 off' = b.u16 off' :=
  u16_congr fun i _ _ => byte_setU32s_ne (by omega)

theorem u32_setU32s_ne (h : off' + 4 ≤ off ∨ off + 4 * vs.length ≤ off') :
    (b.setU32s off vs).u32 off' = b.u32 off' := by
  induction vs generalizing b off with
  | nil => rfl
  | cons v vs ih =>
    simp only [List.length_cons] at h
    rw [setU32s, ih (by omega), u32_setU32_ne (by omega)]

theorem u32_setU32s_get (hn : off + 4 * vs.length ≤ n) (hi : i < vs.length) :
    (b.setU32s off vs).u32 (off + 4 * i) = vs[i] := by
  induction vs generalizing b off i with
  | nil => cases hi
  | cons v vs ih =>
    simp only [List.length_cons] at hn hi
    cases i with
    | zero =>
      rw [setU32s, u32_setU32s_ne (by omega)]
      exact u32_setU32_self (by omega)
    | succ i =>
      rw [setU32s, show off + 4 * (i + 1) = off + 4 + 4 * i by ring, ih (by omega) (by omega)]
      rfl

/-! ## Bits -/

/-- `1 << (k % 8)`. -/
def mask (k : Nat) : UInt8 := 1 <<< UInt8.ofNat (k % 8)

/-- Bit `k`, the least significant one of a byte first. -/
def bit (b : Bytes n) (k : Nat) : Bool := b.byte (k / 8) &&& mask k != 0

def setBit (b : Bytes n) (k : Nat) : Bytes n := b.setByte (k / 8) (b.byte (k / 8) ||| mask k)

def clearBit (b : Bytes n) (k : Nat) : Bytes n := b.setByte (k / 8) (b.byte (k / 8) &&& ~~~mask k)

section
variable {k : Nat}

private theorem and_mask_fin : ∀ (x : Fin 256) (j : Fin 8),
    (UInt8.ofNat x &&& mask j != 0) = (UInt8.ofNat x).toBitVec.getLsbD j := by
  decide +kernel

private theorem getLsbD_mask_fin : ∀ i j : Fin 8, (mask i).toBitVec.getLsbD j = decide (j = i) := by
  decide +kernel

private theorem mask_mod (k : Nat) : mask (k % 8) = mask k := by
  simp only [mask, Nat.mod_mod]

private theorem and_mask (x : UInt8) (j : Nat) :
    (x &&& mask j != 0) = x.toBitVec.getLsbD (j % 8) := by
  have := and_mask_fin ⟨x.toNat, x.toNat_lt⟩ ⟨j % 8, Nat.mod_lt _ (by omega)⟩
  simpa only [mask_mod, UInt8.ofNat_toNat] using this

private theorem getLsbD_mask (h : j / 8 = k / 8) :
    (mask k).toBitVec.getLsbD (j % 8) = decide (j = k) := by
  have he : (j % 8 = k % 8) ↔ j = k := by omega
  have := getLsbD_mask_fin ⟨k % 8, Nat.mod_lt _ (by omega)⟩ ⟨j % 8, Nat.mod_lt _ (by omega)⟩
  simpa only [Fin.mk.injEq, he, mask_mod] using this

theorem bit_setBit (hk : k < 8 * n) : (b.setBit k).bit j = (decide (j = k) || b.bit j) := by
  unfold bit setBit
  by_cases h : j / 8 = k / 8
  · rw [h, byte_setByte_self (by omega)]
    rw [and_mask, and_mask, UInt8.toBitVec_or, BitVec.getLsbD_or, getLsbD_mask h, Bool.or_comm]
  · rw [byte_setByte_ne h, decide_eq_false (by rintro rfl; exact h rfl), Bool.false_or]

@[simp] theorem bit_zero (k : Nat) : (zero n).bit k = false := by simp [bit]

end

/-! ## Runs of bytes -/

/-- The `m` bytes from `off` on. -/
def slice (b : Bytes n) (off m : Nat) : List UInt8 := (List.range m).map fun i => b.byte (off + i)

/-- Copy `l` into the block, from `off` on. -/
def patch (b : Bytes n) (off : Nat) (l : List UInt8) : Bytes n :=
  fun j => if off ≤ j.val then (l[j.val - off]?).getD (b j) else b j

theorem byte_patch (hi : i < n) :
    (b.patch off l).byte i = if off ≤ i then (l[i - off]?).getD (b.byte i) else b.byte i := by
  simp [byte, patch, hi]

theorem byte_patch_ne (h : i < off ∨ off + l.length ≤ i) : (b.patch off l).byte i = b.byte i := by
  by_cases hi : i < n
  · rw [byte_patch hi]
    rcases h with h | h
    · rw [if_neg (by omega)]
    · rw [List.getElem?_eq_none (by omega), Option.getD_none, ite_self]
  · simp [byte, hi]

theorem byte_patch_get (hn : off + l.length ≤ n) (hi : i < l.length) :
    (b.patch off l).byte (off + i) = l[i] := by
  rw [byte_patch (by omega), if_pos (by omega), Nat.add_sub_cancel_left, List.getElem?_eq_getElem hi,
    Option.getD_some]

end Bytes
