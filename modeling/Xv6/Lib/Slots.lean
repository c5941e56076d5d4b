/-
# `Xv6.Lib.Slots` — resources held in slots, and the marks that say which are in use

`f a` is the resource slot `a` holds, 0 for none.  An allocator that keeps its own
marks is right when the marks are exactly the resources it never gives out
(`base`) together with those in slots, and no two slots hold one resource.
-/
import Mathlib.Logic.Function.Basic

namespace Machine

open Function

variable {K : Type}

structure Exact (base : Nat → Prop) (size : Nat) (f : K → Nat) (used : Nat → Prop) : Prop where
  inj : ∀ a a', f a = f a' → f a ≠ 0 → a = a'
  range : ∀ a, f a ≠ 0 → ¬ base (f a) ∧ f a < size
  used : ∀ b < size, used b ↔ base b ∨ (b ≠ 0 ∧ ∃ a, f a = b)

namespace Exact

variable {base : Nat → Prop} {size : Nat} {f : K → Nat} {used used' : Nat → Prop} {a : K} {b : Nat}

/-- Only the marks below `size` count. -/
theorem congr (h : Exact base size f used) (hu : ∀ b < size, used' b ↔ used b) :
    Exact base size f used' :=
  ⟨h.inj, h.range, fun b hb => (hu b hb).trans (h.used b hb)⟩

theorem used_of_slot (h : Exact base size f used) (ha : f a ≠ 0) : used (f a) :=
  (h.used _ (h.range a ha).2).mpr (.inr ⟨ha, a, rfl⟩)

theorem ne_of_not_used (h : Exact base size f used) (hb : ¬ used b) (h0 : b ≠ 0) (a : K) :
    f a ≠ b := by
  rintro rfl
  exact hb (h.used_of_slot h0)

variable [DecidableEq K]

theorem alloc (h : Exact base size f used) (hsz : b < size) (h0 : b ≠ 0) (hb : ¬ used b)
    (ha : f a = 0) : Exact base size (update f a b) fun x => used x ∨ x = b where
  inj := by
    have hne : ∀ x, f x ≠ b := h.ne_of_not_used hb h0
    intro x y hxy hx
    by_cases hxa : x = a
    · by_cases hya : y = a
      · rw [hxa, hya]
      · subst hxa
        rw [update_self, update_of_ne hya] at hxy
        exact absurd hxy.symm (hne y)
    · rw [update_of_ne hxa] at hxy hx
      by_cases hya : y = a
      · subst hya
        rw [update_self] at hxy
        exact absurd hxy (hne x)
      · rw [update_of_ne hya] at hxy
        exact h.inj x y hxy hx
  range x hx := by
    by_cases hxa : x = a
    · subst hxa
      rw [update_self]
      exact ⟨fun hbase => hb ((h.used b hsz).mpr (.inl hbase)), hsz⟩
    · rw [update_of_ne hxa] at hx ⊢
      exact h.range x hx
  used x hx := by
    rw [h.used x hx]
    constructor
    · rintro ((hbase | ⟨hx0, y, rfl⟩) | rfl)
      · exact .inl hbase
      · refine .inr ⟨hx0, y, update_of_ne ?_ _ _⟩
        rintro rfl
        exact hx0 ha
      · exact .inr ⟨h0, a, update_self ..⟩
    · rintro (hbase | ⟨hx0, y, hy⟩)
      · exact .inl (.inl hbase)
      · by_cases hya : y = a
        · subst hya
          rw [update_self] at hy
          exact .inr hy.symm
        · rw [update_of_ne hya] at hy
          exact .inl (.inr ⟨hx0, y, hy⟩)

end Exact

end Machine
