/-
# `Xv6.Find.Glob` — `globmatch` of `user/find.c`

`*` stands for any text, `?` for one character, every other character for itself, and the
whole text has to match.  After a `*` the function tries the rest of the pattern at every
tail of the text but the empty one: by then the pattern has a next character and it is not
a `*`, so it needs a character of the text.
-/
import Xv6.Find.Match

namespace Xv6.Find

open List

/-! ## The code -/

/-- `while(*text) { if(f(text)) return 1; text++; } return 0`. -/
def anyTail (f : Str → Bool) : Str → Bool
  | [] => false
  | c :: text => f (c :: text) || anyTail f text

/-- `globmatch(pattern, text)`. -/
def globmatch (pattern text : Str) : Bool :=
  match pattern with
  | [] => text.isEmpty
  | c :: pattern =>
    if c = '*' then
      -- collapse multiple '*' in a row
      match _h : pattern.dropWhile (· = '*') with
      | [] => true -- trailing '*' matches everything
      | d :: rest =>
        have := (dropWhile_suffix (· = '*') (l := pattern)).length_le
        anyTail (globmatch (d :: rest)) text
    else if c = '?' then
      match text with
      | [] => false
      | _ :: text => globmatch pattern text
    else
      match text with
      | [] => false
      | d :: text => if c ≠ d then false else globmatch pattern text
termination_by pattern.length
decreasing_by all_goals grind

/-! ## What a pattern means -/

/-- `c` stands for the text `u`. -/
def Covers (c : Char) (u : Str) : Prop :=
  if c = '*' then True else if c = '?' then u.length = 1 else u = [c]

/-- The text can be split into parts, one for each character of the pattern. -/
def Splits (pattern text : Str) : Prop :=
  ∃ parts, List.Forall₂ Covers pattern parts ∧ parts.flatten = text

variable {c d : Char} {p t : Str}

theorem splits_nil : Splits [] t ↔ t = [] := by
  simp [Splits, forall₂_nil_left_iff, eq_comm]

theorem splits_cons : Splits (c :: p) t ↔ ∃ u v, Covers c u ∧ Splits p v ∧ t = u ++ v := by
  constructor
  · rintro ⟨parts, hc, rfl⟩
    obtain ⟨u, parts, hu, hp, rfl⟩ := forall₂_cons_left_iff.mp hc
    exact ⟨u, parts.flatten, hu, ⟨parts, hp, rfl⟩, rfl⟩
  · rintro ⟨u, v, hu, ⟨parts, hp, rfl⟩, rfl⟩
    exact ⟨u :: parts, .cons hu hp, rfl⟩

theorem splits_star : Splits ('*' :: p) t ↔ ∃ u v, Splits p v ∧ t = u ++ v := by
  simp [splits_cons, Covers]

/-- A character that is not a `*` takes one character of the text. -/
theorem splits_one (hc : c ≠ '*') :
    Splits (c :: p) t ↔ ∃ d t', t = d :: t' ∧ (c = '?' ∨ c = d) ∧ Splits p t' := by
  rw [splits_cons]
  constructor
  · rintro ⟨u, v, hu, hp, rfl⟩
    by_cases h : c = '?'
    · rw [Covers, if_neg hc, if_pos h] at hu
      obtain ⟨d, rfl⟩ := length_eq_one_iff.mp hu
      exact ⟨d, v, rfl, .inl h, hp⟩
    · rw [Covers, if_neg hc, if_neg h] at hu
      subst hu
      exact ⟨c, v, rfl, .inr rfl, hp⟩
  · rintro ⟨d, t', rfl, h, hp⟩
    refine ⟨[d], t', ?_, hp, rfl⟩
    rw [Covers, if_neg hc]
    split_ifs with h'
    · rfl
    · rw [h.resolve_left h']

/-- A row of `*` stands for what one stands for. -/
theorem splits_collapse : Splits ('*' :: p) t ↔ Splits ('*' :: p.dropWhile (· = '*')) t := by
  induction p with
  | nil => rfl
  | cons c p ih =>
    by_cases hc : c = '*'
    · subst hc
      rw [dropWhile_cons_of_pos (by simp), ← ih, splits_star, splits_star]
      constructor
      · rintro ⟨u, v, hv, rfl⟩
        obtain ⟨u', w, hw, rfl⟩ := splits_star.mp hv
        exact ⟨u ++ u', w, hw, (append_assoc ..).symm⟩
      · rintro ⟨u, v, hv, rfl⟩
        exact ⟨u, v, splits_star.mpr ⟨[], v, hv, rfl⟩, rfl⟩
    · rw [dropWhile_cons_of_neg (by simpa using hc)]

theorem anyTail_iff {f : Str → Bool} :
    anyTail f t = true ↔ ∃ u v, t = u ++ v ∧ v ≠ [] ∧ f v = true := by
  induction t with
  | nil =>
    refine ⟨nofun, ?_⟩
    rintro ⟨u, v, ht, hne, -⟩
    exact absurd (nil_eq_append_iff.mp ht).2 hne
  | cons c t ih =>
    rw [anyTail, Bool.or_eq_true, ih]
    constructor
    · rintro (h | ⟨u, v, rfl, hne, h⟩)
      · exact ⟨[], c :: t, rfl, nofun, h⟩
      · exact ⟨c :: u, v, rfl, hne, h⟩
    · rintro ⟨u, v, ht, hne, h⟩
      cases u with
      | nil => exact .inl (ht ▸ h)
      | cons e u => exact .inr ⟨u, v, tail_eq_of_cons_eq ht, hne, h⟩

/-! ## The code computes it -/

/-- `globmatch` returns 1 exactly when the text can be split along the pattern. -/
theorem globmatch_iff (pattern text : Str) :
    globmatch pattern text = true ↔ Splits pattern text := by
  induction hn : pattern.length using Nat.strong_induction_on generalizing pattern text with
  | _ n ih =>
  cases pattern with
  | nil => rw [globmatch, splits_nil, List.isEmpty_iff]
  | cons c pattern =>
    subst hn
    have hrec := ih pattern.length (Nat.lt_succ_self _) pattern
    rw [globmatch.eq_def]
    dsimp only
    split_ifs with hstar hany
    · subst hstar
      rw [splits_collapse, splits_star]
      split
      · next h =>
        rw [h]
        exact iff_of_true rfl ⟨text, [], splits_nil.mpr rfl, (append_nil _).symm⟩
      · next d rest h =>
        have hd : d ≠ '*' := by
          have := head_dropWhile_not (· = '*') (l := pattern) (by rw [h]; nofun)
          simpa [h] using this
        have hlen : (d :: rest).length < (pattern.length + 1) := by
          rw [← h]
          exact Nat.lt_succ_of_le (dropWhile_suffix _).length_le
        rw [anyTail_iff, h]
        simp only [ih _ hlen _ _ rfl]
        constructor
        · rintro ⟨u, v, ht, -, hv⟩
          exact ⟨u, v, hv, ht⟩
        · rintro ⟨u, v, hv, ht⟩
          refine ⟨u, v, ht, ?_, hv⟩
          -- the empty tail is not tried: what comes next needs a character
          obtain ⟨_, _, rfl, -⟩ := (splits_one hd).mp hv
          nofun
    · rw [splits_one hstar]
      cases text with
      | nil => simp
      | cons e text => simp [hrec, hany]
    · rw [splits_one hstar]
      cases text with
      | nil => simp
      | cons e text => simp [hrec, hany]

end Xv6.Find
