/-
# `Xv6.User.Grep` — the loop of `user/grep.c`

`grep` reads its input into a buffer of 1024 characters, writes the lines in it that match,
and moves the unfinished line at its end down to the start before it reads on.  How many
characters one `read` brings is up to the pipe or the terminal on the other side.

**Proved here.**

  * however the input arrives, `grep` writes the lines that match (`grep_lines`)
  * behind a line of 1023 characters it does not go on (`grep_goes_iff`)
-/
import Xv6.Find.Match

namespace Xv6.Grep

open List

open Find (match_)

/-! ## The code -/

/-- `strchr(s, c)`, as the distance from `s`. -/
def strchr (c : Char) : Str → Option Nat
  | [] => none
  | d :: s => if d = NUL then none else if d = c then some 0 else (strchr c s).map (· + 1)

/-- The body of the inner loop, for a line from `p` to the newline at `q`: what it writes
and `buf`. -/
def line (pattern buf : Str) (p q : Nat) : Str × Str := let buf := buf.set q NUL
  if match_ pattern (cstr (buf.drop p)) then
    let buf := buf.set q '\n'
    ((buf.drop p).take (q + 1 - p), buf)
  else ([], buf)

/-- The inner loop, in at most `fuel` turns: what it writes, then `buf` and `p`. -/
def scan (pattern : Str) : Nat → Str → Nat → Str × Str × Nat
  | 0, buf, p => ([], buf, p)
  | fuel + 1, buf, p =>
    match strchr '\n' (buf.drop p) with
    | none => ([], buf, p)
    | some k =>
      let w := line pattern buf p (p + k)
      let r := scan pattern fuel w.2 (p + k + 1)
      (w.1 ++ r.1, r.2)

def memmove (buf : Str) (p m : Nat) : Str := (buf.drop p).take m ++ buf.drop m

/-- The outer loop of `grep`: what it writes, and the input it has not read when it ends.
The `i`-th `read` brings `ks i + 1` characters where the buffer has room for so many and so
many are left. -/
def grepLoop (pattern : Str) (ks : Nat → Nat) (i : Nat) (buf : Str) (m : Nat) (input : Str) :
    Str × Str :=
  let n := min (ks i + 1) (min (1024 - m - 1) input.length)
  if 0 < n then
    let buf := buf.take m ++ input.take n ++ NUL :: buf.drop (m + n + 1)
    let r := scan pattern buf.length buf 0
    let m := m + n
    let rest := if 0 < m then
        grepLoop pattern ks (i + 1) (memmove r.2.1 r.2.2 (m - r.2.2)) (m - r.2.2) (input.drop n)
      else grepLoop pattern ks (i + 1) r.2.1 m (input.drop n)
    (r.1 ++ rest.1, rest.2)
  else ([], input)
termination_by input.length
decreasing_by all_goals grind

/-- `grep(pattern, fd)`, with `buf` as an earlier file may have left it. -/
def grep (pattern buf : Str) (ks : Nat → Nat) (input : Str) : Str :=
  (grepLoop pattern ks 0 buf 0 input).1

/-- What is left of the input when it returns. -/
def unread (pattern buf : Str) (ks : Nat → Nat) (input : Str) : Str :=
  (grepLoop pattern ks 0 buf 0 input).2

/-! ## Lines -/

/-- The text of whole lines. -/
def text (ls : List Str) : Str := ls.flatMap (· ++ ['\n'])

/-- The lines of `ls` that match, each with its newline. -/
def written (pattern : Str) (ls : List Str) : Str := text (ls.filter (match_ pattern))

theorem text_cons (l : Str) (ls : List Str) : text (l :: ls) = l ++ '\n' :: text ls := by
  simp [text]

theorem text_append (ls ls' : List Str) : text (ls ++ ls') = text ls ++ text ls' := flatMap_append

theorem length_lt_text {ls : List Str} {l : Str} (h : l ∈ ls) : l.length < (text ls).length := by
  obtain ⟨a, b, rfl⟩ := append_of_mem h
  rw [text_append, text_cons, length_append, length_append, length_cons]
  omega

theorem written_append (pattern : Str) (ls ls' : List Str) :
    written pattern (ls ++ ls') = written pattern ls ++ written pattern ls' := by
  rw [written, filter_append, text_append]
  rfl

variable {l s t : Str} {p : Nat}

theorem splitOn_text {ls : List Str} (h : ∀ l ∈ ls, '\n' ∉ l) (s : Str) :
    (text ls ++ s).splitOn '\n' = ls ++ s.splitOn '\n' := by
  induction ls with
  | nil => rfl
  | cons l ls ih =>
    obtain ⟨hl, hls⟩ := forall_mem_cons.mp h
    rw [text_cons, append_assoc, cons_append,
      splitOn_append_cons_self_of_not_mem hl, ih hls, cons_append]

/-- Every text is whole lines and an unfinished one. -/
theorem exists_lines (s : Str) : ∃ ls l, s = text ls ++ l ∧ (∀ l ∈ ls, '\n' ∉ l) ∧ '\n' ∉ l := by
  induction hk : s.length using Nat.strong_induction_on generalizing s with
  | _ k ih =>
    by_cases hs : '\n' ∈ s
    · obtain ⟨a, b, rfl, ha⟩ := eq_append_cons_of_mem hs
      obtain ⟨ls, l, rfl, hls, hl⟩ := ih b.length (by simp [← hk]; omega) b rfl
      exact ⟨a :: ls, l, by simp [text_cons], forall_mem_cons.mpr ⟨ha, hls⟩, hl⟩
    · exact ⟨[], s, rfl, nofun, hs⟩

/-- What is left in the buffer at the end, `l`, and in the input, `rest`: all is read unless
the unfinished line fills the buffer. -/
structure Stuck (l rest : Str) : Prop where
  line : '\n' ∉ l
  full : l.length ≤ 1023
  all : l.length < 1023 → rest = []

/-- A line that fits is not the start of what is left. -/
theorem Stuck.no_line {l rest x y : Str} (h : Stuck l rest) (hx : x.length < 1023) :
    x ++ '\n' :: y ≠ l ++ rest := by
  intro he
  rcases append_eq_append_iff.mp he with ⟨c, rfl, hc⟩ | ⟨c, rfl, -⟩
  · cases c with
    | nil =>
      rw [append_nil] at h
      have := h.all hx
      subst this
      cases hc
    | cons d c =>
      cases hc
      exact h.line (by simp)
  · rw [length_append] at hx
    have := congrArg List.length he
    simp [h.all (by omega)] at this

theorem Stuck.cancel {l rest v : Str} (h : Stuck l rest) {ls short : List Str}
    (hls : ∀ x ∈ ls, '\n' ∉ x ∧ x.length < 1023) (hs : ∀ x ∈ short, '\n' ∉ x)
    (he : text ls ++ v = text short ++ (l ++ rest)) :
    ∃ short', short = ls ++ short' ∧ v = text short' ++ (l ++ rest) := by
  induction ls generalizing short with
  | nil => exact ⟨short, rfl, he⟩
  | cons x ls ih =>
    obtain ⟨hx, hls⟩ := forall_mem_cons.mp hls
    rw [text_cons, append_assoc, cons_append] at he
    cases short with
    | nil => exact absurd he (h.no_line hx.2)
    | cons y short =>
      obtain ⟨hy, hs'⟩ := forall_mem_cons.mp hs
      rw [text_cons, append_assoc, cons_append] at he
      have hxy := congrArg (List.splitOn '\n') he
      rw [splitOn_append_cons_self_of_not_mem hx.1, splitOn_append_cons_self_of_not_mem hy] at hxy
      obtain rfl := (List.cons.inj hxy).1
      have he := (List.cons.inj (append_cancel_left he)).2
      obtain ⟨short', rfl, hv⟩ := ih hls hs' he
      exact ⟨short', rfl, hv⟩

/-! ## One pass over the buffer -/

theorem strchr_append (hN : NUL ∉ l) (hn : '\n' ∉ l) (s : Str) :
    strchr '\n' (l ++ s) = (strchr '\n' s).map (l.length + ·) := by
  induction l with
  | nil => simp
  | cons d l ih =>
    simp only [mem_cons, not_or] at hN hn
    rw [cons_append, strchr, if_neg (Ne.symm hN.1), if_neg (Ne.symm hn.1), ih hN.2 hn.2,
      Option.map_map]
    congr 1
    funext k
    simp only [Function.comp_apply, length_cons]
    omega

theorem drop_set {buf : Str} {c : Char} (h : buf.drop p = l ++ c :: s)
    (d : Char) : (buf.set (p + l.length) d).drop p = l ++ d :: s := by
  rw [List.drop_set, if_neg (by omega), h, Nat.add_sub_cancel_left]
  simp

/-- Either way the text behind the line stays as it was. -/
theorem line_spec (pattern : Str) {buf : Str} (hb : buf.drop p = l ++ '\n' :: s) (hN : NUL ∉ l) :
    (line pattern buf p (p + l.length)).1 = written pattern [l] ∧
      (line pattern buf p (p + l.length)).2.drop (p + l.length + 1) = s := by
  have hset := drop_set hb NUL
  have hset' := drop_set hset '\n'
  have hdrop {buf'} {d : Char} (h : List.drop p buf' = l ++ d :: s) :
      buf'.drop (p + l.length + 1) = s := by
    rw [Nat.add_assoc, ← drop_drop, h]
    simp
  simp only [line, hset, cstr_append hN, written, filter_cons]
  split_ifs
  · refine ⟨?_, hdrop hset'⟩
    rw [hset', show p + l.length + 1 - p = l.length + 1 by omega]
    simp [take_append, text]
  · exact ⟨rfl, hdrop hset⟩

/-- The text `u` of the buffer is whole lines `ls`, of which the pass writes those that
match, and an unfinished line, where it ends. -/
theorem scan_spec (pattern : Str) {fuel : Nat} {buf u rest : Str}
    (hb : buf.drop p = u ++ NUL :: rest) (hN : NUL ∉ u) (hf : u.length ≤ fuel) :
    ∃ ls tl, u = text ls ++ tl ∧ (∀ l ∈ ls, '\n' ∉ l) ∧ '\n' ∉ tl ∧
      (scan pattern fuel buf p).1 = written pattern ls ∧
      (scan pattern fuel buf p).2.2 + tl.length = p + u.length ∧
      (scan pattern fuel buf p).2.1.drop (scan pattern fuel buf p).2.2 = tl ++ NUL :: rest := by
  induction fuel generalizing p buf u with
  | zero =>
    obtain rfl := length_eq_zero_iff.mp (Nat.le_zero.mp hf)
    exact ⟨[], [], rfl, nofun, nofun, rfl, rfl, hb⟩
  | succ fuel ih =>
    by_cases hn : '\n' ∈ u
    · obtain ⟨l, u, rfl, hl⟩ := eq_append_cons_of_mem hn
      simp only [mem_append, mem_cons, not_or] at hN
      rw [append_assoc, cons_append] at hb
      have hq : strchr '\n' (buf.drop p) = some l.length := by
        rw [hb, strchr_append hN.1 hl]
        rfl
      obtain ⟨hw, hdrop⟩ := line_spec pattern hb hN.1
      simp only [length_append, length_cons] at hf ⊢
      obtain ⟨ls, tl, rfl, hls, htl, hout, hp, hd⟩ := ih hdrop hN.2.2 (by omega)
      rw [scan, hq]
      refine ⟨l :: ls, tl, by simp [text_cons], forall_mem_cons.mpr ⟨hl, hls⟩, htl, ?_,
        by grind, hd⟩
      dsimp only
      rw [hw, hout, ← written_append, singleton_append]
    · have hq : strchr '\n' (buf.drop p) = none := by
        rw [hb, strchr_append hN hn]
        rfl
      rw [scan, hq]
      exact ⟨[], u, rfl, nofun, hn, rfl, rfl, hb⟩

/-! ## The whole run -/

/-- With the unfinished line `tl` at the start of the buffer, the rest of the run writes
the lines of `tl` and the unread input that match, up to where it is stuck. -/
theorem grepLoop_spec (pattern : Str) (ks : Nat → Nat) {i : Nat} {buf tl input l rest : Str}
    {short : List Str} (hb : buf.take tl.length = tl) (hn : '\n' ∉ tl) (hm : tl.length ≤ 1023)
    (hN : NUL ∉ tl ++ input) (he : tl ++ input = text short ++ (l ++ rest))
    (hs : ∀ x ∈ short, '\n' ∉ x ∧ x.length < 1023) (hl : Stuck l rest) :
    grepLoop pattern ks i buf tl.length input = (written pattern short, rest) := by
  induction hk : input.length using Nat.strong_induction_on generalizing i buf tl input short with
  | _ k ih =>
    rw [grepLoop]
    generalize hn' : min (ks i + 1) (min (1024 - tl.length - 1) input.length) = n
    dsimp only
    by_cases hpos : 0 < n
    · rw [if_pos hpos, if_pos (by omega)]
      have hsplit : tl ++ input = (tl ++ input.take n) ++ input.drop n := by
        rw [append_assoc, take_append_drop]
      rw [hsplit] at he hN
      rw [hb]
      generalize hbuf : tl ++ input.take n ++ NUL :: buf.drop (tl.length + n + 1) = buf'
      have hlen : (tl ++ input.take n).length = tl.length + n := by
        rw [length_append, length_take, Nat.min_eq_left (by omega)]
      have hfuel : (tl ++ input.take n).length ≤ buf'.length := by grind
      obtain ⟨ls, tl', hu, hls, htl', hout, hp, hd⟩ := scan_spec pattern
        (show buf'.drop 0 = _ from hbuf.symm) (fun h => hN (mem_append_left _ h)) hfuel
      have hfit : ∀ x ∈ ls, '\n' ∉ x ∧ x.length < 1023 := fun x hx => by
        have := length_lt_text hx
        have := congrArg List.length hu
        rw [hlen, length_append] at this
        exact ⟨hls x hx, by omega⟩
      have hp' : tl.length + n - (scan pattern buf'.length buf' 0).2.2 = tl'.length := by omega
      rw [hu, append_assoc] at he hN
      obtain ⟨short', rfl, he'⟩ := hl.cancel hfit (fun x hx => (hs x hx).1) he
      rw [hp', hout, ih (input.drop n).length (by simp only [length_drop]; omega)
        (by simp [memmove, hd]) htl' (by omega) (fun h => hN (mem_append_right _ h)) he'
        (fun x hx => hs x (mem_append_right _ hx)) rfl, written_append]
    · rw [if_neg hpos]
      have hstuck : Stuck tl input := ⟨hn, hm, fun h => length_eq_zero_iff.mp (by omega)⟩
      cases short with
      | cons x short =>
        rw [text_cons, append_assoc, cons_append] at he
        exact absurd he.symm (hstuck.no_line (hs x (by simp)).2)
      | nil =>
        have hlen := congrArg List.length he
        have := hl.full
        have := fun h => congrArg List.length (hl.all h)
        simp only [text, flatMap_nil, nil_append, length_append, length_nil] at *
        rw [(append_inj' he (by omega)).2]
        rfl

/-- However the input arrives, `grep` writes the newline-terminated lines that match, in
order and each once. -/
theorem grep_lines (pattern buf : Str) (ks : Nat → Nat) {input : Str} (hN : NUL ∉ input)
    (hl : ∀ l ∈ input.splitOn '\n', l.length ≤ 1022) :
    grep pattern buf ks input =
      ((input.splitOn '\n').dropLast.filter (match_ pattern)).flatMap (· ++ ['\n']) := by
  obtain ⟨ls, l, rfl, hls, hn⟩ := exists_lines input
  rw [splitOn_text hls, splitOn_eq_singleton hn] at hl ⊢
  have hlen : l.length ≤ 1022 := hl l (by simp)
  rw [dropLast_concat]
  exact congrArg Prod.fst (@grepLoop_spec pattern ks 0 buf [] _ l [] ls rfl nofun (Nat.zero_le _) hN
    (by simp) (fun x hx => ⟨hls x hx, Nat.lt_succ_of_le (hl x (by simp [hx]))⟩)
    ⟨hn, by omega, fun _ => rfl⟩)

/-- Read one character at a time. -/
theorem grep_lines_bc : grep ['b'] [] (fun _ => 0) "ab\nc\nb\nb".toList = "ab\nb\n".toList :=
  (grep_lines _ _ _ (by decide) (by decide)).trans (by decide)

/-- A line of 1023 characters fills the buffer: no `read` brings any more. -/
theorem grep_stuck (pattern buf : Str) (ks : Nat → Nat) {l rest : Str} {ls : List Str}
    (hN : NUL ∉ text ls ++ (l ++ rest)) (hls : ∀ x ∈ ls, '\n' ∉ x ∧ x.length ≤ 1022)
    (hn : '\n' ∉ l) (hl : l.length = 1023) :
    grep pattern buf ks (text ls ++ (l ++ rest)) = written pattern ls ∧
      unread pattern buf ks (text ls ++ (l ++ rest)) = rest := by
  have := @grepLoop_spec pattern ks 0 buf [] _ l rest ls rfl nofun (Nat.zero_le _) hN rfl
    (fun x hx => ⟨(hls x hx).1, Nat.lt_succ_of_le (hls x hx).2⟩) ⟨hn, by omega, by omega⟩
  exact ⟨congrArg Prod.fst this, congrArg Prod.snd this⟩

/-- `grep` reads all of its input, and writes those lines of `later` that fit into the buffer
and match. -/
def Goes (pattern buf : Str) (ks : Nat → Nat) (input : Str) (later : List Str) : Prop :=
  unread pattern buf ks input = [] ∧ ∀ l ∈ later, l.length ≤ 1022 → match_ pattern l = true →
      l ++ ['\n'] <:+: grep pattern buf ks input

theorem eq_text_of_splitOn {long : Str} {before later : List Str}
    (hs : s.splitOn '\n' = before ++ long :: later) : ∃ w, s = text before ++ (long ++ w) ∧
      (w = [] ↔ later = []) ∧ (∀ l ∈ before, '\n' ∉ l) ∧ '\n' ∉ long := by
  obtain ⟨ls, l, rfl, hls, hl⟩ := exists_lines s
  rw [splitOn_text hls, splitOn_eq_singleton hl] at hs
  rcases eq_nil_or_concat later with rfl | ⟨k, z, rfl⟩
  · obtain ⟨rfl, h⟩ := append_inj' hs rfl
    obtain rfl := singleton_inj.mp h
    exact ⟨[], by simp, by simp, hls, hl⟩
  · obtain ⟨rfl, -⟩ := append_inj' (hs.trans (by simp : _ = (before ++ long :: k) ++ [z])) rfl
    obtain ⟨hb, hk⟩ := forall_mem_append.mp hls
    exact ⟨'\n' :: text k ++ l, by simp [text_append, text_cons], by simp, hb,
      hk long mem_cons_self⟩

/-- Behind the first line of 1023 or more characters `grep` goes on only if there is nothing
more: the line has 1023 characters and no newline. -/
theorem grep_goes_iff (pattern buf : Str) (ks : Nat → Nat) {input long : Str}
    {before later : List Str} (hN : NUL ∉ input)
    (hs : input.splitOn '\n' = before ++ long :: later) (hb : ∀ l ∈ before, l.length ≤ 1022)
    (hl : 1023 ≤ long.length) :
    Goes pattern buf ks input later.dropLast ↔ long.length = 1023 ∧ later = [] := by
  obtain ⟨w, rfl, hw, hn, hlong⟩ := eq_text_of_splitOn hs
  have hcut : long ++ w = long.take 1023 ++ (long.drop 1023 ++ w) := by
    rw [← append_assoc, take_append_drop]
  rw [hcut] at hN ⊢
  rw [Goes, (grep_stuck pattern buf ks hN (fun x hx => ⟨hn x hx, hb x hx⟩)
    (fun h => hlong (mem_of_mem_take h)) (by rw [length_take]; omega)).2,
    append_eq_nil_iff, drop_eq_nil_iff, hw]
  constructor
  · rintro ⟨⟨hle, h⟩, -⟩
    exact ⟨by omega, h⟩
  · rintro ⟨hle, rfl⟩
    exact ⟨⟨by omega, rfl⟩, nofun⟩

/-- A line that fills the buffer. -/
def aLine : Str := List.replicate 1023 'a'

theorem not_mem_aLine {c : Char} (hc : c ≠ 'a') : c ∉ aLine := fun h =>
  hc (eq_of_mem_replicate h)

theorem length_aLine : aLine.length = 1023 := length_replicate

theorem grep_goes_alone : Goes ['b'] [] (fun _ => 0) aLine [] :=
  (@grep_goes_iff ['b'] [] (fun _ => 0) aLine aLine [] [] (not_mem_aLine (by decide))
    (splitOn_eq_singleton (not_mem_aLine (by decide))) nofun (Nat.le_of_eq length_aLine.symm)).mpr
    ⟨length_aLine, rfl⟩

/-- Behind 1023 times `a` the line `b` is not found. -/
theorem grep_stops : ∃ input long later, NUL ∉ input ∧ input.splitOn '\n' = long :: later ∧
    1023 ≤ long.length ∧ ¬ Goes ['b'] [] (fun _ => 0) input later.dropLast := by
  have hN : NUL ∉ aLine ++ ['\n', 'b', '\n'] :=
    not_mem_append (not_mem_aLine (by decide)) (by decide)
  have hn : '\n' ∉ aLine := not_mem_aLine (by decide)
  refine ⟨aLine ++ ['\n', 'b', '\n'], aLine, [['b'], []], hN,
    splitOn_append_cons_self_of_not_mem hn _, Nat.le_of_eq length_aLine.symm, fun h => ?_⟩
  have := (@grep_stuck ['b'] [] (fun _ => 0) aLine ['\n', 'b', '\n'] [] hN nofun hn length_aLine).2
  cases h.1.symm.trans this

end Xv6.Grep
