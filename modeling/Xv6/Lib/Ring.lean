/-
# `Xv6.Lib.Ring` — a ring of `n` slots behind counters that only grow

A counter `c` stands for slot `c % n`.  `window buf r len` is the queue that starts
at counter `r`, read off the slots.  Counters of a machine wrap at some `m`; as long
as `n` divides `m` the slots do not notice (`slot_mod`).
-/
import Mathlib.Data.Fin.Basic
import Mathlib.Data.List.Basic
import Mathlib.Data.Nat.ModEq

namespace Machine

open Function List

variable {α : Type} {n : Nat} [NeZero n]

/-- The slot of a counter. -/
def slot (n : Nat) [NeZero n] (c : Nat) : Fin n := Fin.ofNat n c

theorem slot_mod {m : Nat} (h : n ∣ m) (c : Nat) : slot n (c % m) = slot n c :=
  Fin.ext (Nat.mod_mod_of_dvd c h)

/-- Counters less than `n` apart have different slots. -/
theorem slot_ne {c d : Nat} (hlt : c < d) (hn : d < c + n) : slot n c ≠ slot n d := by
  intro h
  have hmod : c % n = d % n := congrArg Fin.val h
  have hdvd : n ∣ d - c := (Nat.modEq_iff_dvd' hlt.le).mp hmod
  have := Nat.le_of_dvd (by omega) hdvd
  omega

section
variable (buf : Fin n → α)

/-- The queue of `len` entries that starts at counter `r`. -/
def window (r len : Nat) : List α :=
  (List.range len).map fun i => buf (slot n (r + i))

@[simp] theorem length_window (r len : Nat) : (window buf r len).length = len := by
  simp [window]

theorem window_succ (r len : Nat) :
    window buf r (len + 1) = window buf r len ++ [buf (slot n (r + len))] := by
  simp [window, range_succ]

theorem window_cons (r len : Nat) :
    window buf r (len + 1) = buf (slot n r) :: window buf (r + 1) len := by
  unfold window
  rw [range_succ_eq_map, map_cons, map_map]
  congr 1
  refine map_congr_left fun i _ => ?_
  show buf (slot n (r + (i + 1))) = buf (slot n (r + 1 + i))
  rw [Nat.add_assoc, Nat.add_comm 1 i]

theorem window_take (r : Nat) {k len : Nat} (h : k ≤ len) :
    (window buf r len).take k = window buf r k := by
  unfold window
  rw [← map_take, take_range, Nat.min_eq_left h]

theorem window_update [DecidableEq (Fin n)] {r len : Nat} (h : len < n) (a : α) :
    window (update buf (slot n (r + len)) a) r len = window buf r len := by
  refine map_congr_left fun i hi => ?_
  have hi : i < len := mem_range.mp hi
  exact update_of_ne (slot_ne (by omega) (by omega)) ..

theorem window_mod {m : Nat} (hm : n ∣ m) (buf : Fin n → α) (r len : Nat) :
    window buf (r % m) len = window buf r len := by
  refine map_congr_left fun i _ => ?_
  have : slot n (r % m + i) = slot n (r + i) := by
    rw [← slot_mod hm (r % m + i), Nat.mod_add_mod, slot_mod hm]
  rw [this]

/-! ## Between two 16-bit counters -/

/-- The queue from counter `lo` up to counter `hi`. -/
def entries (lo hi : UInt16) : List α := window buf lo.toNat (hi - lo).toNat

@[simp] theorem entries_self (c : UInt16) : entries buf c c = [] := by
  simp [entries, window]

end

section entries
variable (hn : n ∣ 2 ^ 16) (buf : Fin n → α) {lo hi : UInt16}
include hn

/-- The slot behind the queue. -/
theorem slot_hi (lo hi : UInt16) : slot n hi.toNat = slot n (lo.toNat + (hi - lo).toNat) := by
  have hi_eq : (lo + (hi - lo)).toNat = hi.toNat := by
    rw [UInt16.add_comm, UInt16.sub_add_cancel]
  rw [← slot_mod hn (lo.toNat + _), ← hi_eq, UInt16.toNat_add]

theorem entries_store [DecidableEq (Fin n)] (hfull : (entries buf lo hi).length < n) (a : α) :
    entries (update buf (slot n hi.toNat) a) lo hi = entries buf lo hi := by
  rw [entries, slot_hi hn lo hi]
  exact window_update buf (by simpa [entries] using hfull) a

theorem entries_push (hlt : n < 2 ^ 16) (hfull : (entries buf lo hi).length < n) :
    entries buf lo (hi + 1) = entries buf lo hi ++ [buf (slot n hi.toNat)] := by
  have hlen : (hi - lo).toNat < n := by simpa [entries] using hfull
  have hsucc : (hi + 1 - lo).toNat = (hi - lo).toNat + 1 := by
    simp only [UInt16.toNat_sub, UInt16.toNat_add, UInt16.toNat_one] at hlen ⊢
    omega
  rw [entries, hsucc, window_succ, ← slot_hi hn]
  rfl

theorem entries_pop (hne : lo ≠ hi) :
    entries buf lo hi = buf (slot n lo.toNat) :: entries buf (lo + 1) hi := by
  have hpred : (hi - lo).toNat = (hi - (lo + 1)).toNat + 1 := by
    have hlo := lo.toNat_lt
    have hhi := hi.toNat_lt
    have : lo.toNat ≠ hi.toNat := fun h => hne (UInt16.toNat_inj.mp h)
    simp only [UInt16.toNat_sub, UInt16.toNat_add, UInt16.toNat_one]
    omega
  rw [entries, hpred, window_cons, entries, UInt16.toNat_add, UInt16.toNat_one, window_mod hn]

end entries

end Machine
