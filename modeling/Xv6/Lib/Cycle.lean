/-
# `Xv6.Lib.Cycle` — linked lists, cycles and loops that follow them

A linked list is a list of nodes each of which points to the next one and the last
of which points to a given node; it is a cycle if that is its first node.  A loop
that follows the links of a cycle meets every node of it.
-/
import Mathlib.Data.List.Basic
import Mathlib.Logic.Function.Iterate

namespace Machine

open Function List

variable {α : Type*} {next next' : α → α}

/-- Every node of the list points to the one behind it, and the last one to `stop`. -/
def Linked (next : α → α) : List α → α → Prop
  | [], _ => True
  | x :: l, stop => next x = l.headD stop ∧ Linked next l stop

theorem headD_append (l m : List α) (z : α) : (l ++ m).headD z = l.headD (m.headD z) := by
  cases l <;> rfl

variable {l : List α} {z x y : α}

theorem linked_append {m : List α} :
    Linked next (l ++ m) z ↔ Linked next l (m.headD z) ∧ Linked next m z := by
  induction l with
  | nil => exact ⟨fun h => ⟨trivial, h⟩, fun h => h.2⟩
  | cons x l ih =>
    rw [cons_append, Linked, Linked, ih, headD_append, and_assoc]

theorem Linked.congr (h : Linked next l z) (he : ∀ x ∈ l, next' x = next x) : Linked next' l z := by
  induction l with
  | nil => trivial
  | cons x l ih =>
    exact ⟨(he x mem_cons_self).trans h.1, ih h.2 fun y hy => he y (mem_cons_of_mem _ hy)⟩

theorem Linked.iterate (h : Linked next l z) (hx : l.head? = some x) (k : Nat) (hk : k < l.length) :
    next^[k] x = l[k] := by
  induction l generalizing x k with
  | nil => cases hx
  | cons y l ih =>
    cases hx
    cases k with
    | zero => rfl
    | succ k =>
      rw [length_cons] at hk
      cases l with
      | nil => simp at hk
      | cons w l =>
        rw [iterate_succ_apply, h.1]
        exact ih h.2 rfl k (by omega)

/-- The list is closed: its last node points to its first. -/
def Circular (next : α → α) (x : α) (l : List α) : Prop := Linked next (x :: l) x

theorem Circular.rotate (h : Circular next x l) (hy : y ∈ x :: l) :
    ∃ m, Circular next y m ∧ (y :: m).Perm (x :: l) := by
  obtain ⟨a, b, hab⟩ := append_of_mem hy
  refine ⟨b ++ a, ?_, ?_⟩
  · rw [Circular, hab, linked_append] at h
    rw [Circular, ← cons_append, linked_append]
    refine ⟨?_, h.1⟩
    have hhead : a.headD y = x := by
      cases a with
      | nil | cons w a => exact (List.cons.inj hab).1.symm
    rw [hhead]
    exact h.2
  · rw [hab, ← cons_append]
    exact perm_append_comm

theorem Circular.next_mem (h : Circular next x l) (hy : y ∈ x :: l) : next y ∈ x :: l := by
  obtain ⟨m, hm, hperm⟩ := h.rotate hy
  rw [← hperm.mem_iff, hm.1]
  cases m with
  | nil => exact mem_cons_self
  | cons w m => exact mem_cons_of_mem _ mem_cons_self

theorem Circular.reaches (h : Circular next x l) (hy : y ∈ x :: l) (hz : z ∈ x :: l) :
    ∃ k ≤ l.length, next^[k] y = z := by
  obtain ⟨m, hm, hperm⟩ := h.rotate hy
  obtain ⟨k, hk, hkz⟩ := mem_iff_getElem.mp (hperm.mem_iff.mpr hz)
  refine ⟨k, ?_, ?_⟩
  · rw [hperm.length_eq, length_cons] at hk
    omega
  · rw [Linked.iterate hm rfl k hk, hkz]

theorem Circular.iterate_mem (h : Circular next x l) (hy : y ∈ x :: l) :
    ∀ k, next^[k] y ∈ x :: l
  | 0 => hy
  | k + 1 => by
    rw [iterate_succ_apply']
    exact h.next_mem (h.iterate_mem hy k)

/-! ## Loops -/

/-- `while (!stop(x)) x = next(x)`, for at most `n` turns. -/
def walk (next : α → α) (stop : α → Bool) : Nat → α → Option α
  | 0, _ => none
  | n + 1, x => if stop x then some x else walk next stop n (next x)

/-- A loop that has a stopping node in front of it ends there or before. -/
theorem walk_spec (next : α → α) (stop : α → Bool) :
    ∀ {n k : Nat} {x : α}, stop (next^[k] x) = true → k < n →
    ∃ j ≤ k, walk next stop n x = some (next^[j] x) ∧ stop (next^[j] x) = true
  | 0, _, _, _, hk => absurd hk (Nat.not_lt_zero _)
  | n + 1, k, x, hstop, hk => by
    rw [walk]
    by_cases hs : stop x = true
    · exact ⟨0, Nat.zero_le _, if_pos hs, hs⟩
    · rw [if_neg hs]
      cases k with
      | zero => exact absurd hstop hs
      | succ k =>
        rw [iterate_succ_apply] at hstop
        obtain ⟨j, hj, heq, hsj⟩ := walk_spec next stop hstop (Nat.lt_of_succ_lt_succ hk)
        exact ⟨j + 1, Nat.succ_le_succ hj, heq, hsj⟩

end Machine
