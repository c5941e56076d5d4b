/-
# `Xv6.User.Xargs` — `user/xargs.c`

`main` reads its input byte by byte into a buffer of 512 bytes.  At a newline
`parse_args` cuts the buffer into words in place, by storing NULs over blanks, and
the argument vector that is executed points into it.  The vectors are what the child
passes to `exec`; `fork` is assumed to succeed.

**Proved here.**

  * a last line without a newline is not executed (`xargs_runs_every_line_iff`)
-/
import Xv6.Lib.Text
import Xv6.Params

namespace Xv6.Xargs

open Function List

/-- `sizeof(buf)`. -/
abbrev BUFSZ : Nat := 512

/-! ## The code -/

/-- An entry of `xargv`: an argument of `xargs` itself, or a pointer into `buf`. -/
inductive Arg
  | own (s : Str)
  | ptr (p : Nat)

/-- The string at `&buf[p]`; `k` bytes of the buffer are left. -/
def strFrom (buf : Nat → Char) : Nat → Nat → Str
  | 0, _ => []
  | k + 1, p => if buf p = '\x00' then [] else buf p :: strFrom buf k (p + 1)

def str (buf : Nat → Char) (p : Nat) : Str := strFrom buf (BUFSZ - p) p

def Arg.value (buf : Nat → Char) : Arg → Str
  | .own s => s
  | .ptr p => str buf p

/-- The loop of `parse_args` at `&buf[p]`, with `k` bytes of the buffer left.  The list
`args` is the array up to `argc`. -/
def parseLoop : Nat → Nat → Bool → List Arg → (Nat → Char) → Except String ((Nat → Char) × List Arg)
  | 0, _, _, _, _ => .error "read behind the buffer"
  | k + 1, p, inword, args, buf =>
    if buf p = '\x00' then .ok (buf, args)
    else if buf p = ' ' ∨ buf p = '\t' then
      parseLoop k (p + 1) false args (update buf p '\x00')
    else if buf p = '\n' then .ok (update buf p '\x00', args)
    else if inword then parseLoop k (p + 1) true args buf
    else if args.length ≥ MAXARG - 1 then .error "xargs: too many arguments\n"
    else parseLoop k (p + 1) true (args ++ [.ptr p]) buf

/-- `parse_args(buf, args, start)`; `args` has the first `start` entries. -/
def parseArgs (buf : Nat → Char) (args : List Arg) : Except String ((Nat → Char) × List Arg) :=
  parseLoop BUFSZ 0 false args buf

/-- What `main` has done: how it has exited, and the vectors executed. -/
structure Exited where
  status : Except String Unit
  ran : List (List Str)
deriving DecidableEq

/-- The loop of `main`, with `n` bytes of a line in the buffer. -/
def mainLoop (base : List Str) : Str → (Nat → Char) → Nat → List (List Str) → Exited
  | [], _, _, ran => ⟨.ok (), ran⟩
  | c :: input, buf, n, ran =>
    let buf := update buf n c
    if c = '\n' then
      match parseArgs (update buf (n + 1) '\x00') (base.map .own) with
      | .error msg => ⟨.error msg, ran⟩
      | .ok (buf, args) => mainLoop base input buf 0 (ran ++ [args.map (Arg.value buf)])
    else if n + 1 ≥ BUFSZ - 2 then ⟨.error "xargs: input line too long\n", ran⟩
    else mainLoop base input buf (n + 1) ran

/-- `main`, on what the stack holds at `buf`. -/
def main (argv : List Str) (buf : Nat → Char) (input : Str) : Exited :=
  if argv.length < 2 then ⟨.error "Usage: xargs command [args...]\n", []⟩
  else mainLoop argv.tail input buf 0 []

/-! ## What it is for -/

def blank (c : Char) : Bool := c = ' ' || c = '\t'

/-- The maximal runs of characters that are not blank. -/
def words (l : Str) : List Str := (l.splitOnP blank).filter (· ≠ [])

/-- One vector per line. -/
def vectors (base : List Str) (input : Str) : List (List Str) :=
  (lines input).map fun l => base ++ words l

/-! ## `parse_args` -/

variable {buf : Nat → Char} {l : Str} {base : List Str}

theorem str_nul {p : Nat} (h : buf p = '\x00') : str buf p = [] := by
  rw [str]
  cases BUFSZ - p with
  | zero => rfl
  | succ k => rw [strFrom, if_pos h]

theorem str_cons {p : Nat} (hp : p < BUFSZ) (h : buf p ≠ '\x00') :
    str buf p = buf p :: str buf (p + 1) := by
  rw [str, str, show BUFSZ - p = BUFSZ - (p + 1) + 1 by omega, strFrom, if_neg h]

theorem splitOnP_eq_cons (l : Str) :
    l.splitOnP blank = l.takeWhile (!blank ·) :: (l.splitOnP blank).tail := by
  induction l with
  | nil => rfl
  | cons c l ih =>
    rw [splitOnP_cons_eq_if_modifyHead, takeWhile_cons]
    by_cases hc : blank c = true
    · simp [hc]
    · rw [if_neg hc, ih]
      simp [hc]

/-- The buffer holds `l` from `p` on, then a newline and a NUL. -/
structure Holds (buf : Nat → Char) (p : Nat) (l : Str) : Prop where
  line : ∀ i (h : i < l.length), buf (p + i) = l[i]
  newline : buf (p + l.length) = '\n'

theorem Holds.tail {p : Nat} {c : Char} (h : Holds buf p (c :: l)) :
    buf p = c ∧ Holds buf (p + 1) l := by
  refine ⟨h.line 0 (Nat.succ_pos _), fun i hi => ?_, ?_⟩
  · have := h.line (i + 1) (Nat.succ_lt_succ hi)
    rwa [getElem_cons_succ, Nat.add_comm i, ← Nat.add_assoc] at this
  · have := h.newline
    rwa [length_cons, Nat.add_comm l.length, ← Nat.add_assoc] at this

theorem Holds.update {p q : Nat} (h : Holds buf p l) (hq : q < p) (c : Char) :
    Holds (update buf q c) p l := by
  refine ⟨fun i hi => ?_, ?_⟩
  · rw [update_of_ne (by omega)]
    exact h.line i hi
  · rw [update_of_ne (by omega)]
    exact h.newline

/-- The words that begin at or behind a character; a word that has begun is not
counted again. -/
def fresh (inword : Bool) (l : Str) : List Str :=
  (if inword then (l.splitOnP blank).tail else l.splitOnP blank).filter (· ≠ [])

/-- Where the loop finds the rest `l` of a line, it cuts `l` and points to its words. -/
theorem parseLoop_spec : ∀ (l : Str) {k p : Nat} {inword : Bool} {args : List Arg}
    {buf : Nat → Char}, Holds buf p l → p + l.length < BUFSZ → k = BUFSZ - p →
    '\x00' ∉ l → '\n' ∉ l → args.length + (fresh inword l).length ≤ MAXARG - 1 →
    ∃ buf' new, parseLoop k p inword args buf = .ok (buf', args ++ new) ∧
      (∀ i < p, buf' i = buf i) ∧ str buf' p = l.takeWhile (!blank ·) ∧
      new.map (Arg.value buf') = fresh inword l
  | [], k, p, inword, args, buf, hb, hp, hk, _, _, _ => by
    obtain ⟨k, rfl⟩ : ∃ k', k = k' + 1 := ⟨k - 1, by simp at hp; omega⟩
    have hnl : buf p = '\n' := hb.newline
    refine ⟨update buf p '\x00', [], ?_, fun i hi => ?_, ?_, ?_⟩
    · rw [parseLoop, hnl]
      simp
    · rw [update_of_ne (by omega)]
    · exact str_nul (update_self ..)
    · cases inword <;> rfl
  | c :: l, k, p, inword, args, buf, hb, hp, hk, hnul, hnl, hargs => by
    rw [length_cons] at hp
    obtain ⟨k, rfl⟩ : ∃ k', k = k' + 1 := ⟨k - 1, by omega⟩
    obtain ⟨hc, hb⟩ := hb.tail
    have hc0 : c ≠ '\x00' := fun h => hnul (h ▸ mem_cons_self)
    have hcn : c ≠ '\n' := fun h => hnl (h ▸ mem_cons_self)
    have hnul' : '\x00' ∉ l := fun h => hnul (mem_cons_of_mem _ h)
    have hnl' : '\n' ∉ l := fun h => hnl (mem_cons_of_mem _ h)
    rw [parseLoop, hc, if_neg hc0]
    by_cases hblank : c = ' ' ∨ c = '\t'
    · have hbl : blank c = true := by simpa [blank] using hblank
      have hfresh : fresh inword (c :: l) = fresh false l := by
        rw [fresh, fresh, splitOnP_cons_eq_if_modifyHead, if_pos hbl]
        cases inword <;> simp
      rw [hfresh] at hargs ⊢
      obtain ⟨buf', new, heq, hbelow, -, hnew⟩ := parseLoop_spec l
        (hb.update (Nat.lt_succ_self p) '\x00') (by omega) (show k = BUFSZ - (p + 1) by omega)
        hnul' hnl' hargs
      refine ⟨buf', new, ?_, fun i hi => ?_, ?_, hnew⟩
      · rw [if_pos hblank, heq]
      · rw [hbelow i (by omega), update_of_ne (by omega)]
      · rw [takeWhile_cons, hbl]
        refine str_nul ?_
        rw [hbelow p (Nat.lt_succ_self p), update_self]
    · have hbl : blank c = false := by simpa [blank] using hblank
      rw [if_neg hblank, if_neg hcn]
      have hstr : ∀ {buf' : Nat → Char}, (∀ i < p + 1, buf' i = buf i) →
          str buf' (p + 1) = l.takeWhile (!blank ·) →
          str buf' p = (c :: l).takeWhile (!blank ·) := by
        intro buf' hbelow hrest
        have hp' : buf' p = c := (hbelow p (Nat.lt_succ_self p)).trans hc
        rw [str_cons (by omega) (hp' ▸ hc0), hp', hrest, takeWhile_cons, hbl]
        rfl
      cases inword with
      | true =>
        have hfresh : fresh true (c :: l) = fresh true l := by
          simp only [fresh, if_true]
          rw [splitOnP_cons_eq_if_modifyHead, hbl, splitOnP_eq_cons l]
          rfl
        rw [hfresh] at hargs ⊢
        obtain ⟨buf', new, heq, hbelow, hrest, hnew⟩ := parseLoop_spec l hb (by omega)
          (show k = BUFSZ - (p + 1) by omega) hnul' hnl' hargs
        exact ⟨buf', new, by rw [if_pos rfl, heq], fun i hi => hbelow i (by omega),
          hstr hbelow hrest, hnew⟩
      | false =>
        -- a word begins here; it goes on to the next blank
        have hfresh : fresh false (c :: l) = (c :: l).takeWhile (!blank ·) :: fresh true l := by
          simp only [fresh, if_true, Bool.false_eq_true, if_false]
          rw [splitOnP_cons_eq_if_modifyHead, hbl, splitOnP_eq_cons l]
          simp [hbl]
        rw [hfresh, length_cons] at hargs
        have hargs' : (args ++ [Arg.ptr p]).length + (fresh true l).length ≤ MAXARG - 1 := by
          rw [length_append, length_singleton]
          omega
        obtain ⟨buf', new, heq, hbelow, hrest, hnew⟩ := parseLoop_spec l hb (by omega)
          (show k = BUFSZ - (p + 1) by omega) hnul' hnl' hargs'
        refine ⟨buf', .ptr p :: new, ?_, fun i hi => hbelow i (by omega), hstr hbelow hrest, ?_⟩
        · rw [if_neg Bool.false_ne_true, if_neg (by omega), heq, append_assoc]
          rfl
        · rw [map_cons, hnew, hfresh, ← hstr hbelow hrest]
          rfl

/-- A line and its newline in the buffer: the vector has the words of the line. -/
theorem parseArgs_spec (hb : Holds buf 0 l) (hlen : l.length < BUFSZ)
    (hnul : '\x00' ∉ l) (hnl : '\n' ∉ l) (hfit : base.length + (words l).length ≤ MAXARG - 1) :
    ∃ buf' args, parseArgs buf (base.map .own) = .ok (buf', args) ∧
      args.map (Arg.value buf') = base ++ words l := by
  have hfit' : (base.map Arg.own).length + (fresh false l).length ≤ MAXARG - 1 := by
    rwa [length_map]
  obtain ⟨buf', new, heq, -, -, hnew⟩ := parseLoop_spec l hb (by omega) rfl hnul hnl hfit'
  refine ⟨buf', _, heq, ?_⟩
  rw [map_append, hnew, map_map]
  congr 1
  exact map_id'' (fun _ => rfl) base

/-! ## `main` -/

theorem splitOn_append_of_not_mem (h : '\n' ∉ l) (rest : Str) :
    (l ++ rest).splitOn '\n' = (rest.splitOn '\n').modifyHead (l ++ ·) := by
  induction l with
  | nil => exact (modifyHead_id ▸ rfl)
  | cons c l ih =>
    have hc : ¬ (c == '\n') = true := fun hc => h (eq_of_beq hc ▸ mem_cons_self)
    rw [cons_append, splitOn_cons_eq_if_modifyHead, if_neg hc,
      ih fun hm => h (mem_cons_of_mem _ hm), modifyHead_modifyHead]
    rfl

/-- With the line `cur` in the buffer, `main` executes a vector for each line that a
newline ends. -/
theorem mainLoop_spec : ∀ (input cur : Str) (buf : Nat → Char)
    (ran : List (List Str)), (∀ i (h : i < cur.length), buf i = cur[i]) → '\n' ∉ cur →
    '\x00' ∉ cur ++ input → (∀ l ∈ (cur ++ input).splitOn '\n', l.length < BUFSZ - 2) →
    (∀ l ∈ ((cur ++ input).splitOn '\n').dropLast, base.length + (words l).length ≤ MAXARG - 1) →
    mainLoop base input buf cur.length ran =
      ⟨.ok (), ran ++ ((cur ++ input).splitOn '\n').dropLast.map fun l => base ++ words l⟩
  | [], cur, buf, ran, _, hnl, _, _, _ => by
    rw [append_nil, splitOn_eq_singleton hnl, mainLoop]
    simp
  | c :: input, cur, buf, ran, hb, hnl, hnul, hlen, hfit => by
    rw [mainLoop]
    by_cases hc : c = '\n'
    · subst hc
      rw [splitOn_append_cons_self_of_not_mem hnl] at hlen hfit ⊢
      rw [dropLast_cons_of_ne_nil (splitOn_ne_nil _ _)] at hfit ⊢
      have hcur : cur.length < BUFSZ - 2 := hlen cur mem_cons_self
      have hholds : Holds (update (update buf cur.length '\n')
          (cur.length + 1) '\x00') 0 cur := by
        refine ⟨fun i hi => ?_, ?_⟩
        · rw [Nat.zero_add, update_of_ne (by omega), update_of_ne (by omega)]
          exact hb i hi
        · rw [Nat.zero_add, update_of_ne (by omega), update_self]
      have hcurfit := hfit cur mem_cons_self
      obtain ⟨buf', args, heq, hargs⟩ := parseArgs_spec hholds (by omega)
        (fun hm => hnul (mem_append_left _ hm)) hnl hcurfit
      rw [if_pos rfl, heq]
      simp only
      have hrest := mainLoop_spec input [] buf' (ran ++ [args.map (Arg.value buf')])
        (fun i hi => absurd hi (Nat.not_lt_zero i)) not_mem_nil
        (fun hm => hnul (mem_append_right _ (mem_cons_of_mem _ hm)))
        (fun l hl => hlen l (mem_cons_of_mem _ hl))
        (fun l hl => hfit l (mem_cons_of_mem _ hl))
      rw [length_nil, nil_append] at hrest
      rw [hrest, hargs, map_cons, append_assoc]
      rfl
    · -- the byte is appended to the line
      have hassoc : cur ++ c :: input = (cur ++ [c]) ++ input := by simp
      rw [hassoc] at hnul hlen hfit ⊢
      have hnl' : '\n' ∉ cur ++ [c] := fun hm => (mem_append.mp hm).elim hnl
        fun hm => hc (mem_singleton.mp hm).symm
      have hshort : (cur ++ [c]).length < BUFSZ - 2 := by
        rw [splitOn_append_of_not_mem hnl'] at hlen
        cases hp : input.splitOn '\n' with
        | nil => exact absurd hp (splitOn_ne_nil _ _)
        | cons l ls =>
          have := hlen (cur ++ [c] ++ l) (by rw [hp]; exact mem_cons_self)
          rw [length_append] at this
          omega
      have hn : (cur ++ [c]).length = cur.length + 1 := by simp
      rw [if_neg hc, if_neg (by omega), ← hn]
      refine mainLoop_spec input (cur ++ [c]) _ _ (fun i hi => ?_) hnl' hnul hlen hfit
      by_cases hi' : i < cur.length
      · rw [update_of_ne (by omega), getElem_append_left hi']
        exact hb i hi'
      · obtain rfl : i = cur.length := by omega
        simp

/-- The last piece of an input is empty if a newline ends it. -/
theorem getLast_splitOn (input : Str) :
    (input.splitOn '\n').getLast? = some [] ↔ input = [] ∨ input.getLast? = some '\n' := by
  by_cases hm : '\n' ∈ input
  · -- cut at the last newline
    obtain ⟨b, a, heq, hb⟩ := eq_append_cons_of_mem (mem_reverse.mpr hm)
    have hinput : input = a.reverse ++ '\n' :: b.reverse := by
      rw [← reverse_reverse input, heq]
      simp
    have hb' : '\n' ∉ b.reverse := fun h => hb (mem_reverse.mp h)
    generalize a.reverse = a, b.reverse = b at hinput hb'
    subst hinput
    rw [splitOn_append_cons_self, splitOn_eq_singleton hb', List.getLast?_concat]
    cases hlast : b.getLast? with
    | none =>
      rw [List.getLast?_eq_none_iff] at hlast
      simp [hlast]
    | some c =>
      have hne : b ≠ [] := fun h0 => by rw [h0] at hlast; cases hlast
      have hc : c ≠ '\n' := fun h0 => hb' (h0 ▸ mem_of_getLast? hlast)
      have hl : (a ++ '\n' :: b).getLast? = some c := by
        rw [List.getLast?_append_cons, List.getLast?_cons, hlast]
        rfl
      simp [hl, hne, hc]
  · rw [splitOn_eq_singleton hm]
    have hno : input.getLast? ≠ some '\n' := fun h => hm (mem_of_getLast? h)
    simp [hno]

/-- On input without NULs whose lines fit, `xargs` executes one vector per line exactly
if the input is empty or ends with a newline. -/
theorem xargs_runs_every_line_iff (argv : List Str) (buf : Nat → Char) (input : Str)
    (hargc : 2 ≤ argv.length) (hnul : '\x00' ∉ input)
    (hlen : ∀ l ∈ lines input, l.length < 510)
    (hfit : ∀ l ∈ lines input, argv.tail.length + (words l).length ≤ MAXARG - 1) :
    (main argv buf input).status = .ok () ∧
    ((main argv buf input).ran = vectors argv.tail input ↔
      input = [] ∨ input.getLast? = some '\n') := by
  have hpieces : ∀ l ∈ input.splitOn '\n', l ∈ lines input ∨ l = [] := by
    intro l hl
    rw [lines]
    split
    · rename_i hlast
      obtain ⟨ls, hls⟩ := List.getLast?_eq_some_iff.mp hlast
      rw [hls] at hl ⊢
      simpa using hl
    · exact .inl hl
  have hended : ∀ l ∈ (input.splitOn '\n').dropLast, l ∈ lines input := by
    intro l hl
    rw [lines]
    split
    · exact hl
    · exact mem_of_mem_dropLast hl
  have hrun : main argv buf input =
      ⟨.ok (), (input.splitOn '\n').dropLast.map fun l => argv.tail ++ words l⟩ := by
    rw [main, if_neg (by omega)]
    refine mainLoop_spec input [] _ _ (fun i hi => absurd hi (Nat.not_lt_zero i))
      not_mem_nil hnul (fun l hl => ?_) fun l hl => hfit l (hended l hl)
    rcases hpieces l hl with hl | rfl
    · exact hlen l hl
    · decide
  rw [hrun, ← getLast_splitOn, vectors, lines]
  refine ⟨rfl, fun heq => ?_, fun hlast => ?_⟩
  · by_contra hlast
    rw [if_neg hlast] at heq
    have := congrArg List.length heq
    have hpos := length_pos_iff.mpr (splitOn_ne_nil '\n' input)
    simp only [length_map, length_dropLast] at this
    omega
  · rw [if_pos hlast]

/-- `xargs echo` on the input `a`: nothing is executed. -/
theorem xargs_skips_last_line :
    let argv := ["xargs".toList, "echo".toList]
    '\x00' ∉ ['a'] ∧ (∀ l ∈ lines ['a'], l.length < 510) ∧
    (∀ l ∈ lines ['a'], argv.tail.length + (words l).length ≤ MAXARG - 1) ∧
    (main argv (fun _ => '\x00') ['a']).ran = [] ∧
    vectors argv.tail ['a'] = [["echo".toList, ['a']]] := by
  decide

theorem xargs_runs_two_lines :
    let argv := ["xargs".toList, "echo".toList]
    let input := "a  b\nc\n".toList
    ((main argv (fun _ => '\x00') input).status = .ok () ∧
    ((main argv (fun _ => '\x00') input).ran = vectors argv.tail input ↔
      input = [] ∨ input.getLast? = some '\n')) ∧
    (main argv (fun _ => '\x00') input).ran =
      [["echo".toList, ['a'], ['b']], ["echo".toList, ['c']]] :=
  ⟨xargs_runs_every_line_iff _ _ _ (by decide) (by decide) (by decide) (by decide), by decide⟩

end Xv6.Xargs
