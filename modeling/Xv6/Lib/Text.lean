/-
# `Xv6.Lib.Text` — strings in memory, and the lines of a text
-/
import Mathlib.Data.List.Basic

namespace Xv6

open List

abbrev Str := List Char

abbrev NUL : Char := '\x00'

/-- The string that starts at a place in memory. -/
def cstr (mem : Str) : Str := mem.takeWhile (· ≠ NUL)

/-- The lines of a text, each ended by a newline or by the end of the text. -/
def lines (input : Str) : List Str :=
  let pieces := input.splitOn '\n'
  if pieces.getLast? = some [] then pieces.dropLast else pieces

variable {l : Str}

theorem cstr_append (hl : NUL ∉ l) (s : Str) : cstr (l ++ NUL :: s) = l := by
  have h : ∀ c ∈ l, decide (c ≠ NUL) := fun c hc => decide_eq_true fun h => hl (h ▸ hc)
  rw [cstr, takeWhile_append_of_pos h]
  simp

theorem lines_line (hl : '\n' ∉ l) (input : Str) :
    lines (l ++ '\n' :: input) = l :: lines input := by
  obtain ⟨a, ps, hps⟩ := exists_cons_of_ne_nil (splitOn_ne_nil '\n' input)
  simp only [lines, splitOn_append_cons_self_of_not_mem hl, hps, getLast?_cons_cons,
    dropLast_cons_cons]
  split <;> rfl

theorem lines_last (hl : '\n' ∉ l) (hne : l ≠ []) : lines l = [l] := by
  rw [lines, splitOn_eq_singleton hl, if_neg (by simpa using hne)]

end Xv6
