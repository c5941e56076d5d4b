/-
# `Xv6.Lib.Ledger` — resources that move between a pool and their holders

A pool lends out resources, and remembers for whom each one was last taken.
`Moves t l X l' X'` is the account of a piece of code that works for `t`, held `X`
before and holds `X'` after: nothing is lost, nothing appears, and nobody else's
resources are touched.  Accounts compose (`Moves.trans`), so that of a loop or of a
function with several exits is put together from those of its steps.
-/
import Mathlib.Algebra.BigOperators.Fin
import Mathlib.Tactic.Abel

namespace Machine

open Function Multiset

variable {α β : Type} {ι M : Type}

/-- The pool: what is free, and for whom a resource was last taken. -/
structure Ledger (α β : Type) where
  free : Multiset α
  tag : α → β

structure Moves (t : β) (l : Ledger α β) (X : Multiset α) (l' : Ledger α β) (X' : Multiset α) :
    Prop where
  same : l'.free + X' = l.free + X
  others : ∀ a, a ∉ l.free + X → l'.tag a = l.tag a
  only : ∀ a, l'.tag a = l.tag a ∨ l'.tag a = t
  mine : (∀ a ∈ X, l.tag a = t) → ∀ a ∈ X', l'.tag a = t

namespace Moves

variable {t : β} {l l' l'' : Ledger α β} {X X' X'' : Multiset α} {a : α}

theorem refl (t : β) (l : Ledger α β) (X : Multiset α) : Moves t l X l X :=
  ⟨rfl, fun _ _ => rfl, fun _ => .inl rfl, id⟩

theorem trans (h : Moves t l X l' X') (h' : Moves t l' X' l'' X'') : Moves t l X l'' X'' where
  same := h'.same.trans h.same
  others a ha := by
    have ha' : a ∉ l'.free + X' := by rwa [h.same]
    exact (h'.others a ha').trans (h.others a ha)
  only a := by
    rcases h'.only a with h2 | h2
    · rw [h2]; exact h.only a
    · exact .inr h2
  mine hX := h'.mine (h.mine hX)

/-- What the code holds besides and does not touch. -/
theorem frame (h : Moves t l X l' X') (Y : Multiset α) : Moves t l (X + Y) l' (X' + Y) where
  same := by rw [← add_assoc, h.same, add_assoc]
  others a ha := by
    refine h.others a fun hin => ha ?_
    rw [← add_assoc]
    exact mem_add.mpr (.inl hin)
  only := h.only
  mine hX a ha := by
    rcases mem_add.mp ha with ha | ha
    · exact h.mine (fun b hb => hX b (mem_add.mpr (.inl hb))) a ha
    · rcases h.only a with heq | heq
      · rw [heq]; exact hX a (mem_add.mpr (.inr ha))
      · exact heq

theorem cons (h : Moves t l X l' X') (a : α) : Moves t l (a ::ₘ X) l' (a ::ₘ X') := by
  have := h.frame {a}
  rwa [add_comm X, add_comm X', singleton_add, singleton_add] at this

/-- One resource is taken. -/
theorem take [DecidableEq α] (t : β) {l : Ledger α β} {F : Multiset α} (X : Multiset α)
    (h : l.free = a ::ₘ F) : Moves t l X ⟨F, update l.tag a t⟩ (a ::ₘ X) where
  same := by
    rw [h, add_cons, cons_add]
  others b hb := by
    have hne : b ≠ a := by
      rintro rfl
      exact hb (by rw [h]; simp)
    exact update_of_ne hne ..
  only b := by
    by_cases hb : b = a
    · subst hb; exact .inr (update_self ..)
    · exact .inl (update_of_ne hb ..)
  mine hX b hb := by
    show update l.tag a t b = t
    by_cases hba : b = a
    · subst hba; exact update_self ..
    · rw [update_of_ne hba]
      exact hX b ((mem_cons.mp hb).resolve_left hba)

/-- One resource is given back. -/
theorem give (t : β) (l : Ledger α β) (a : α) (X : Multiset α) :
    Moves t l (a ::ₘ X) ⟨a ::ₘ l.free, l.tag⟩ X where
  same := by
    rw [add_cons, cons_add]
  others _ _ := rfl
  only _ := .inl rfl
  mine hX b hb := hX b (mem_cons_of_mem hb)

/-- What others hold keeps its tag. -/
theorem rest (h : Moves t l X l' X') {R : Multiset α} (hnd : (l.free + (X + R)).Nodup)
    (ha : a ∈ R) : l'.tag a = l.tag a := by
  refine h.others a fun hin => ?_
  rw [← add_assoc] at hnd
  exact disjoint_left.mp (nodup_add.mp hnd).2.2 hin ha

end Moves

/-- Sums that differ in one place. -/
theorem sum_swap [Fintype ι] [DecidableEq ι] [AddCommMonoid M] {g h : ι → M} (i : ι)
    (hgh : ∀ j, j ≠ i → g j = h j) : ∑ j, g j + h i = ∑ j, h j + g i := by
  have h1 := Finset.add_sum_erase Finset.univ g (Finset.mem_univ i)
  have h2 := Finset.add_sum_erase Finset.univ h (Finset.mem_univ i)
  have h3 : ∑ j ∈ Finset.univ.erase i, g j = ∑ j ∈ Finset.univ.erase i, h j :=
    Finset.sum_congr rfl fun j hj => hgh j (Finset.ne_of_mem_erase hj)
  rw [← h1, ← h2, h3]
  abel

/-- One summand is replaced. -/
theorem sum_update_add [Fintype ι] [DecidableEq ι] [AddCommMonoid M] (g : β → M)
    (f : ι → β) (i : ι) (b : β) : ∑ j, g (update f i b j) + g (f i) = ∑ j, g (f j) + g b := by
  have := sum_swap (g := fun j => g (update f i b j)) i
    fun j hj => by rw [update_of_ne hj]
  simpa only [update_self] using this

end Machine
