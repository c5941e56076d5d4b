/-
# `Xv6.Shell.Main` — how `user/sh.c` reads its input

`readline` with its editing keys, history and Tab completion, `getcmd`, and the loop of
`main`.  Standard input is the list of characters still to come; at its end `read`
reports end of file.  `buf` is memory from the start of the array on, as far as it has
been written, so an overrun shows as a longer list.  Echoing is left out.

What the loop does with a line is recorded as an event: a `chdir` in the shell itself
or a child that runs `runcmd(parsecmd(buf))`.

**Proved here.**

  * every line is handled, exactly when no line is empty (`shell_reads_all`)
  * an empty line ends the shell (`blank_line_ends_shell`)
-/
import Mathlib
import Xv6.Params
import Xv6.Shell.ParseSpec

namespace Xv6.Shell

open List

-- it would decide `∀ c ∈ s` by running through all characters
attribute [-instance] Char.instDecidableForallOfDecidablePred_batteries

abbrev MAX_HISTORY : Nat := 16

/-- `sizeof(buf)` in `main`. -/
abbrev nbuf : Nat := 100

structure Dirent where
  inum : Nat
  name : Str

/-! ## Editing a line -/

/-- The bytes `s` written at `buf + i`. -/
def poke (buf : Str) (i : Nat) (s : Str) : Str := buf.take i ++ s ++ buf.drop (i + s.length)

/-- `char history[MAX_HISTORY][MAX_LINE]`.  A row has no end here; as long as every line is
shorter than `MAX_LINE`, no row runs into the next one. -/
structure History where
  entry : Nat → Str
  count : Nat
  index : Nat

/-- The state of `readline`. -/
structure Edit where
  buf : Str
  len : Nat
  hist : History

/-- `strncmp(p, q, n) == 0`. -/
def sameStart (p q : Str) (n : Nat) : Bool := (cstr p).take n = (cstr q).take n

/-- The names that the scan of the directory has matched, of which it stops at the second. -/
def matches_ (dir : List Dirent) (pre : Str) (len : Nat) : List Str :=
  ((dir.filter fun de => de.inum ≠ 0 && sameStart de.name pre len).map
    fun de => cstr (de.name.take DIRSIZ)).take 2

def handleTabCompletion (dir : List Dirent) (buf : Str) (i : Nat) : Str × Nat :=
  let word := ((buf.take i).reverse.takeWhile fun c => c ≠ ' ' ∧ c ≠ '/').length
  let j := i - word
  let len := if DIRSIZ ≤ i - j then DIRSIZ else i - j
  match matches_ dir ((buf.drop j).take len) len with
  | [name] => (poke buf j (name ++ [NUL]), j + name.length)
  | _ => (buf, i)

/-- A line of the history replaces the buffer. -/
def Edit.load (e : Edit) (index : Nat) : Edit := let line := e.hist.entry (index % MAX_HISTORY)
  { buf := poke e.buf 0 (line ++ [NUL]), len := line.length, hist := { e.hist with index } }

def upArrow (e : Edit) : Edit := if 0 < e.hist.index then e.load (e.hist.index - 1) else e

def downArrow (e : Edit) : Edit := if e.hist.index < e.hist.count then
    if e.hist.index + 1 < e.hist.count then e.load (e.hist.index + 1)
    else { buf := poke e.buf 0 [NUL], len := 0, hist := { e.hist with index := e.hist.index + 1 } }
  else e

def escape (a b : Char) (e : Edit) : Edit := if a = '[' then
    if b = 'A' then upArrow e else if b = 'B' then downArrow e else e
  else e

/-- Enter: terminate the line and save it, unless it repeats the last one. -/
def enter (e : Edit) : Edit := let buf := poke e.buf e.len [NUL]
  let h := e.hist
  let line := cstr buf
  let h := if 0 < e.len ∧ (h.count = 0 ∨ line ≠ h.entry ((h.count - 1) % MAX_HISTORY)) then
      { h with entry := fun i => if i = h.count % MAX_HISTORY then line else h.entry i,
               count := h.count + 1 }
    else h
  { e with buf, hist := { h with index := h.count } }

def normal (max : Nat) (c : Char) (e : Edit) : Edit :=
  if e.len < max - 1 then { e with buf := poke e.buf e.len [c], len := e.len + 1 } else e

/-- The loop of `readline`; the result has the rest of the input and whether `read`
has reported its end.  `dirs k` is the current directory when `k` characters are left. -/
def readLoop (dirs : Nat → List Dirent) (max : Nat) : Str → Edit → Edit × Str × Bool
  | [], e => (e, [], true)
  | '\n' :: input, e => (enter e, input, false)
  | '\x1b' :: a :: b :: input, e => readLoop dirs max input (escape a b e)
  | ['\x1b', _], e => (e, [], true)
  | ['\x1b'], e => (e, [], true)
  | c :: input, e =>
    if c = '\x7f' ∨ c = '\x08' then
      readLoop dirs max input (if 0 < e.len then { e with len := e.len - 1 } else e)
    else if c = '\t' then
      let (buf, len) := handleTabCompletion (dirs input.length) e.buf e.len
      readLoop dirs max input { e with buf, len }
    else readLoop dirs max input (normal max c e)

def readline (dirs : Nat → List Dirent) (buf : Str) (max : Nat) (hist : History) (input : Str) :
    Str × History × Str × Bool :=
  let (e, input, eof) := readLoop dirs max input ⟨poke buf 0 [NUL], 0, hist⟩
  (poke e.buf e.len [NUL], e.hist, input, eof)

/-! ## Keys -/

/-- What a turn of the loop of `readline` reads, if it does not end the loop. -/
inductive Key
  | char (c : Char)
  | escape (a b : Char)
  | tab (dir : List Dirent)

def isErase (c : Char) : Bool := c = '\x7f' ∨ c = '\x08'

def press (max : Nat) (e : Edit) : Key → Edit
  | .char c =>
    if isErase c then (if 0 < e.len then { e with len := e.len - 1 } else e) else normal max c e
  | .escape a b => escape a b e
  | .tab dir =>
    { e with buf := (handleTabCompletion dir e.buf e.len).1
             len := (handleTabCompletion dir e.buf e.len).2 }

/-- The keys of one call, the rest of the input, and whether its end was reported. -/
def keys (dirs : Nat → List Dirent) : Str → List Key × Str × Bool
  | [] => ([], [], true)
  | '\n' :: input => ([], input, false)
  | '\x1b' :: a :: b :: input => (.escape a b :: (keys dirs input).1, (keys dirs input).2)
  | ['\x1b', _] => ([], [], true)
  | ['\x1b'] => ([], [], true)
  | c :: input =>
    ((if c = '\t' then .tab (dirs input.length) else .char c) :: (keys dirs input).1,
      (keys dirs input).2)

theorem readLoop_keys (dirs : Nat → List Dirent) (max : Nat) (input : Str) (e : Edit) :
    readLoop dirs max input e = (if (keys dirs input).2.2 then (keys dirs input).1.foldl (press max) e
      else enter ((keys dirs input).1.foldl (press max) e), (keys dirs input).2) := by
  fun_induction readLoop dirs max input e with
  | case1 | case2 | case4 | case5 => simp [keys]
  | case3 a b input e ih => simp [keys, ih, press]
  | case6 c input e _ _ _ _ hc ih =>
    have ht : c ≠ '\t' := by rintro rfl; simp at hc
    rw [keys, ih]
    · simp [press, isErase, hc, ht]
    all_goals assumption
  | case7 input e buf len hbuf _ _ _ _ _ ih =>
    rw [keys]
    · simp [press, ih, hbuf]
    all_goals simp
  | case8 c input e _ _ _ _ hc ht ih =>
    rw [keys, ih]
    · simp [press, isErase, hc, ht]
    all_goals assumption

/-! ## The shell -/

inductive Event
  | chdir (path : Str)
  | run (line : Str)
deriving DecidableEq

/-- What `getcmd` leaves behind; it returns -1 if `buf[0] == 0`. -/
def getcmd (dirs : Nat → List Dirent) (nbuf : Nat) (hist : History) (input : Str) :
    Bool × Str × History × Str × Bool :=
  let (buf, hist, input, eof) := readline dirs (List.replicate nbuf NUL) nbuf hist input
  (decide (buf.head? ≠ some NUL), buf, hist, input, eof)

/-- What `main` does with a line. -/
def handle (buf : Str) : Event := if buf.take 3 = ['c', 'd', ' '] then
    let buf := poke buf ((cstr buf).length - 1) [NUL]
    .chdir (cstr (buf.drop 3))
  else .run (cstr buf)

/-- How the loop of `main` has ended: the events, whether the last `read` reported the
end of the input, and what was not read. -/
structure Session where
  events : List Event
  eof : Bool
  unread : Str
deriving DecidableEq

def mainLoop (dirs : Nat → List Dirent) : Nat → History → Str → Option Session
  | 0, _, _ => none
  | n + 1, hist, input =>
    let (ok, buf, hist, input, eof) := getcmd dirs nbuf hist input
    if ok then
      (mainLoop dirs n hist input).map fun s => { s with events := handle buf :: s.events }
    else some ⟨[], eof, input⟩

def main (dirs : Nat → List Dirent) (input : Str) : Option Session :=
  mainLoop dirs (input.length + 1) ⟨fun _ => [], 0, 0⟩ input

/-! ## Reading printable characters -/

def Printable (c : Char) : Prop := ' ' ≤ c ∧ c ≤ '~'

instance (c : Char) : Decidable (Printable c) := inferInstanceAs (Decidable (_ ∧ _))

section
variable {dirs : Nat → List Dirent} {max : Nat} {e : Edit} {c : Char} {l input : Str}

theorem Printable.ne (h : Printable c) : c ≠ '\n' ∧ c ≠ '\x1b' ∧ c ≠ '\x7f' ∧ c ≠ '\x08' ∧
    c ≠ '\t' ∧ c ≠ NUL := by
  refine ⟨?_, ?_, ?_, ?_, ?_, ?_⟩ <;> rintro rfl <;> exact absurd h (by decide)

theorem readLoop_normal (h : Printable c) :
    readLoop dirs max (c :: input) e = readLoop dirs max input (normal max c e) := by
  obtain ⟨hn, he, hd, hb, ht, -⟩ := h.ne
  rw [readLoop]
  · rw [if_neg (by simp [hd, hb]), if_neg ht]
  · exact hn
  · exact fun a b i hc _ => he hc
  · exact fun a hc _ => he hc
  · exact fun hc _ => he hc

theorem poke_poke (buf : Str) {i : Nat} (hi : i ≤ buf.length) (s t : Str) :
    poke (poke buf i s) (i + s.length) t = poke buf i (s ++ t) := by
  unfold poke
  have hlen : (buf.take i ++ s).length = i + s.length := by
    rw [length_append, length_take_of_le hi]
  rw [take_left' hlen, ← hlen, drop_length_add_append, drop_drop]
  simp only [append_assoc, length_append, length_take_of_le hi, Nat.add_assoc]

/-- Printable characters go to the buffer. -/
theorem readLoop_printable (hl : ∀ c ∈ l, Printable c) : ∀ {e : Edit}, e.len ≤ e.buf.length →
    e.len + l.length ≤ max - 1 → readLoop dirs max (l ++ input) e =
      readLoop dirs max input { e with buf := poke e.buf e.len l, len := e.len + l.length } := by
  induction l with
  | nil => intro e _ _; simp [poke]
  | cons c l ih =>
    intro e hlen hmax
    rw [length_cons] at hmax
    have hbuf : (poke e.buf e.len [c]).length ≥ e.len + 1 := by
      simp only [poke, length_append, length_take_of_le hlen, length_singleton]
      omega
    rw [cons_append, readLoop_normal (hl c mem_cons_self), normal,
      if_pos (by omega), ih (fun d hd => hl d (mem_cons_of_mem _ hd)) hbuf (by simp; omega)]
    congr 1
    simp only [Edit.mk.injEq, and_true, length_cons]
    refine ⟨?_, by omega⟩
    exact poke_poke e.buf hlen [c] l

theorem poke_zero (buf s : Str) : poke buf 0 s = s ++ buf.drop s.length := by
  rw [poke, take_zero, nil_append, Nat.zero_add]

/-- Terminating what was written. -/
theorem poke_nul (l : Str) (u : Str) (hu : u ≠ []) :
    poke (l ++ u) l.length [NUL] = l ++ NUL :: u.tail := by
  rw [poke, take_left, ← drop_drop, drop_left, append_assoc]
  cases u with
  | nil => exact absurd rfl hu
  | cons c u => rfl

theorem readLoop_start (dirs : Nat → List Dirent) (hl : ∀ c ∈ l, Printable c)
    (hlen : l.length ≤ 99) (hist : History) (input : Str) : ∃ u, u ≠ [] ∧
    readLoop dirs nbuf (l ++ input) ⟨poke (List.replicate nbuf NUL) 0 [NUL], 0, hist⟩ =
      readLoop dirs nbuf input ⟨l ++ u, l.length, hist⟩ := by
  refine ⟨(poke (List.replicate nbuf NUL) 0 [NUL]).drop l.length, ?_, ?_⟩
  · rw [poke_zero, ne_nil_iff_length_pos, length_drop, length_append, length_drop, length_replicate]
    show 0 < 1 + (100 - 1) - l.length
    omega
  · rw [readLoop_printable hl (Nat.zero_le _) (by simp only [Nat.zero_add]; omega)]
    simp only [poke_zero, Nat.zero_add]

/-- `getcmd` returns the next line. -/
theorem getcmd_line (dirs : Nat → List Dirent) (hl : ∀ c ∈ l, Printable c) (hlen : l.length ≤ 99)
    (hist : History) (input : Str) : ∃ u hist', getcmd dirs nbuf hist (l ++ '\n' :: input) =
      (decide ((l ++ NUL :: u).head? ≠ some NUL), l ++ NUL :: u, hist', input, false) := by
  obtain ⟨u, hu, heq⟩ := readLoop_start dirs hl hlen hist ('\n' :: input)
  refine ⟨u.tail, (enter ⟨l ++ u, l.length, hist⟩).hist, ?_⟩
  rw [getcmd, readline, heq, readLoop]
  have hbuf : (enter ⟨l ++ u, l.length, hist⟩).buf = l ++ NUL :: u.tail := poke_nul l u hu
  have hlen : (enter ⟨l ++ u, l.length, hist⟩).len = l.length := rfl
  simp only [hbuf, hlen, poke_nul l _ (cons_ne_nil _ _), tail_cons]

/-- At the end of the input it returns what is left. -/
theorem getcmd_end (dirs : Nat → List Dirent) (hl : ∀ c ∈ l, Printable c) (hlen : l.length ≤ 99)
    (hist : History) : ∃ u, getcmd dirs nbuf hist l =
      (decide ((l ++ NUL :: u).head? ≠ some NUL), l ++ NUL :: u, hist, [], true) := by
  obtain ⟨u, hu, heq⟩ := readLoop_start dirs hl hlen hist []
  rw [append_nil] at heq
  refine ⟨u.tail, ?_⟩
  rw [getcmd, readline, heq, readLoop]
  simp only [poke_nul l u hu]

end

/-! ## Handling a line -/

/-- The event of a line: the argument of `cd` loses its last character. -/
def eventOf (l : Str) : Event :=
  if l.take 3 = ['c', 'd', ' '] then .chdir (l.drop 3).dropLast else .run l

variable {l u : Str}

/-- The path that `chdir` is given. -/
theorem cstr_chopped {c : Char} (hl : NUL ∉ l) (h2 : 2 ≤ l.length) :
    cstr ((l ++ NUL :: NUL :: u).drop 3) = ((l ++ [c]).drop 3).dropLast := by
  by_cases h3 : 3 ≤ l.length
  · rw [drop_append_of_le_length h3, drop_append_of_le_length h3,
      cstr_append fun h => hl (mem_of_mem_drop h), dropLast_concat]
  · obtain ⟨a, b, rfl⟩ := length_eq_two.mp (by omega : l.length = 2)
    rfl

theorem handle_line (hl : NUL ∉ l) : handle (l ++ NUL :: u) = eventOf l := by
  unfold handle eventOf
  rw [cstr_append hl]
  by_cases h3 : 3 ≤ l.length
  · rw [take_append_of_le_length h3]
    split
    · obtain ⟨l', c, rfl⟩ := (eq_nil_or_concat l).resolve_left fun h => by
        rw [h] at h3
        exact absurd h3 (by decide)
      rw [concat_eq_append] at h3 hl ⊢
      rw [length_append, length_singleton] at h3
      have hpoke : poke (l' ++ [c] ++ NUL :: u) ((l' ++ [c]).length - 1) [NUL] =
          l' ++ NUL :: NUL :: u := by
        rw [length_append, length_singleton, Nat.add_sub_cancel, append_assoc]
        exact poke_nul l' _ (cons_ne_nil _ _)
      simp only [hpoke]
      rw [cstr_chopped (fun h => hl (mem_append_left _ h)) (by omega)]
    · rfl
  · have hlt : ∀ v : Str, v.length < 3 → v ≠ ['c', 'd', ' '] := by
      rintro v hv rfl
      exact absurd hv (by decide)
    rw [if_neg, if_neg]
    · exact hlt _ (by rw [length_take]; omega)
    · -- the terminator is among the first three characters
      intro h
      have hmem : NUL ∈ (l ++ NUL :: u).take 3 := by
        rw [take_append]
        obtain ⟨k, hk⟩ : ∃ k, 3 - l.length = k + 1 := ⟨2 - l.length, by omega⟩
        rw [hk, take_succ_cons]
        simp
      rw [h] at hmem
      exact absurd hmem (by decide)

/-! ## Whole sessions -/

/-- Characters and line lengths of the input. -/
structure Typed (input : Str) : Prop where
  chars : ∀ c ∈ input, c = '\n' ∨ Printable c
  length : ∀ l ∈ lines input, l.length ≤ 99

theorem head_line (hl : NUL ∉ l) : decide ((l ++ NUL :: u).head? ≠ some NUL) = decide (l ≠ []) := by
  cases l with
  | nil => rfl
  | cons c l =>
    have hc : c ≠ NUL := fun h => hl (h ▸ mem_cons_self)
    simp [hc]

theorem Typed.printable {input : Str} (h : Typed input) (hsub : ∀ c ∈ l, c ∈ input)
    (hl : '\n' ∉ l) : (∀ c ∈ l, Printable c) ∧ NUL ∉ l := by
  have hp : ∀ c ∈ l, Printable c := fun c hc =>
    (h.chars c (hsub c hc)).resolve_left fun he => hl (he ▸ hc)
  exact ⟨hp, fun hm => (hp _ hm).ne.2.2.2.2.2 rfl⟩

/-- How a session on `input` ends. -/
structure Finished (input : Str) (s : Session) : Prop where
  events : s.events = ((lines input).takeWhile (· ≠ [])).map eventOf
  eof : s.eof = true ↔ [] ∉ lines input
  unread : s.eof = true → s.unread = []

theorem ends_cons {input rest : Str} {s : Session} (hl : l ≠ [])
    (hlines : lines input = l :: lines rest) (h : Finished rest s) :
    Finished input { s with events := eventOf l :: s.events } := by
  refine ⟨?_, ?_, h.unread⟩
  · rw [hlines, takeWhile_cons_of_pos (by simpa using hl), map_cons, ← h.events]
  · rw [hlines, mem_cons, not_or]
    exact h.eof.trans ⟨fun hr => ⟨hl.symm, hr⟩, fun hr => hr.2⟩

/-- The loop handles the lines up to the first empty one. -/
theorem mainLoop_lines (dirs : Nat → List Dirent) (n : Nat) : ∀ (hist : History) (input : Str),
    input.length < n → Typed input → ∃ s, mainLoop dirs n hist input = some s ∧ Finished input s := by
  induction n with
  | zero => exact fun _ _ h => absurd h (Nat.not_lt_zero _)
  | succ n ih =>
    intro hist input hlt ht
    by_cases hmem : '\n' ∈ input
    · obtain ⟨l, rest, rfl, hl⟩ := eq_append_cons_of_mem hmem
      obtain ⟨hp, hnul⟩ := ht.printable (fun c hc => mem_append_left _ hc) hl
      have hlines := lines_line hl rest
      have hlen : l.length ≤ 99 := ht.length l (by rw [hlines]; exact mem_cons_self)
      obtain ⟨u, hist', hg⟩ := getcmd_line dirs hp hlen hist rest
      rw [mainLoop, hg]
      by_cases hne : l = []
      · subst hne
        refine ⟨⟨[], false, rest⟩, rfl, ?_, ?_, nofun⟩
        · rw [hlines]; rfl
        · rw [hlines]; simp
      · have ht' : Typed rest :=
          ⟨fun c hc => ht.chars c (mem_append_right _ (mem_cons_of_mem _ hc)),
            fun m hm => ht.length m (by rw [hlines]; exact mem_cons_of_mem _ hm)⟩
        rw [length_append, length_cons] at hlt
        obtain ⟨s, hs, hend⟩ := ih hist' rest (by omega) ht'
        simp only [head_line hnul, hne, ne_eq, not_false_eq_true, decide_true, if_true, hs,
          handle_line hnul]
        exact ⟨_, rfl, ends_cons hne hlines hend⟩
    · obtain ⟨hp, hnul⟩ := ht.printable (fun _ => id) hmem
      by_cases hne : input = []
      · subst hne
        exact ⟨⟨[], true, []⟩, rfl, rfl, ⟨fun _ => not_mem_nil, fun _ => rfl⟩, fun _ => rfl⟩
      · have hlines := lines_last hmem hne
        obtain ⟨u, hg⟩ := getcmd_end dirs hp (ht.length _ (by rw [hlines]; simp)) hist
        have hpos := length_pos_iff.mpr hne
        obtain ⟨s, hs, hend⟩ := ih hist [] (show 0 < n by omega) ⟨nofun, nofun⟩
        rw [mainLoop, hg]
        simp only [head_line hnul, hne, ne_eq, not_false_eq_true, decide_true, if_true, hs,
          handle_line hnul]
        exact ⟨_, rfl, ends_cons hne (show lines input = input :: lines [] from hlines) hend⟩

/-- A line of blanks is run, and its command does nothing. -/
theorem blank_line (hl : ∀ c ∈ l, c = ' ') : eventOf l = .run l ∧ parsecmd l = .ok (.exec []) := by
  constructor
  · refine if_neg fun h => ?_
    have : 'c' ∈ l.take 3 := by rw [h]; decide
    exact absurd (hl _ (mem_of_mem_take this)) (by decide)
  · have hlex : Lex l [] := by
      induction l with
      | nil => exact .nil
      | cons c l ih =>
        have hc : c = ' ' := hl c mem_cons_self
        exact .white (by rw [hc]; decide) (ih fun d hd => hl d (mem_cons_of_mem _ hd))
    exact parsecmd_complete (fun hm => absurd (hl _ hm) (by decide)) hlex
      (line_pipe (.last (.simple .nil .nil (by decide))))

/-- The shell ends on every input of printable lines.  It handles every line and leaves
at the end of the input exactly when no line is empty; lines of blanks do nothing. -/
theorem shell_reads_all (dirs : Nat → List Dirent) {input : Str} (h : Typed input) :
    (∃ s, main dirs input = some s) ∧
    (main dirs input = some ⟨((lines input).filter (· ≠ [])).map eventOf, true, []⟩ ↔
      [] ∉ lines input) ∧
    ∀ l ∈ lines input, (∀ c ∈ l, c = ' ') → eventOf l = .run l ∧ parsecmd l = .ok (.exec []) := by
  obtain ⟨s, hs, hend⟩ := mainLoop_lines dirs _ _ input (Nat.lt_succ_self _) h
  refine ⟨⟨s, hs⟩, ⟨fun hm => ?_, fun hm => ?_⟩, fun l _ hl => blank_line hl⟩
  · obtain rfl := Option.some.inj (hs.symm.trans hm)
    exact hend.eof.mp rfl
  · have hall : ∀ l ∈ lines input, decide (l ≠ []) = true := fun l hl =>
      decide_eq_true fun he => hm (he ▸ hl)
    refine hs.trans (congrArg some ?_)
    have heof := hend.eof.mpr hm
    rw [filter_eq_self.mpr hall, ← takeWhile_eq_self_iff.mpr hall, ← hend.events,
      ← heof, ← hend.unread heof]

/-- Two commands with an empty line between them. -/
def lsBlankPwd : Str := "ls\n\npwd\n".toList

/-- The shell leaves at the empty line, and does not read the second command. -/
theorem blank_line_ends_shell : Typed lsBlankPwd ∧ (∀ dirs : Nat → List Dirent,
    main dirs lsBlankPwd = some ⟨[.run "ls".toList], false, "pwd\n".toList⟩) ∧
    lines lsBlankPwd = ["ls".toList, [], "pwd".toList] := by
  refine ⟨⟨by decide, by decide⟩, fun dirs => ?_, by decide⟩
  rfl

theorem shell_reads_all_ls : main (fun _ => []) "ls\ncd a\npwd".toList =
    some ⟨[.run "ls".toList, .chdir [], .run "pwd".toList], true, []⟩ :=
  ((shell_reads_all (fun _ => []) ⟨by decide, by decide⟩).2.1).mpr (by decide)

end Xv6.Shell
