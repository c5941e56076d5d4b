/-
# `Xv6.Shell.Keys` — what the keys do to line, history and screen

A call of `readline` reads keys until Enter or the end of the input; `readLoop` is the
fold of `press` over them.  The shell makes one call after the other on one history, so
here a state is the line being edited together with what has happened so far: the lines
entered, and the screen as the writes to descriptor 1 have left it.

  * A cell of the screen holds a character; a new row is blank, and rows have no end.
  * Between two calls a command runs, and leaves the cursor anywhere.

Only typing looks at the length of the buffer, and only its own row limits `Up`: a
completion can run past the end of the buffer, and after more than `MAX_HISTORY` lines
`Up` comes round to the newest ones.

**Proved here.**

  * when a completion only extends the line (`tab_extends`)
  * `chdir` gets the path without its last character (`cd_path`)
  * buffer and rows are kept if every completion fits (`readline_in_bounds`)
  * the arrows show the history, up to the last `MAX_HISTORY` lines
    (`arrows_show_history`)
  * the screen shows the line being edited (`screen_shows_line`)
-/
import Xv6.Lib.Run
import Xv6.Shell.Main

namespace Xv6.Shell

open Machine List

attribute [-instance] Char.instDecidableForallOfDecidablePred_batteries

abbrev MAX_LINE : Nat := 128

/-! ## The line -/

/-- The line being edited. -/
def Edit.line (e : Edit) : Str := e.buf.take e.len

/-- `readline` at its start, on the buffer that `getcmd` has cleared. -/
def fresh (hist : History) : Edit := ⟨poke (List.replicate nbuf NUL) 0 [NUL], 0, hist⟩

variable {buf s out : Str} {i n : Nat} {e : Edit} {k : Key}

theorem length_poke (h : i ≤ buf.length) (s : Str) :
    (poke buf i s).length = max buf.length (i + s.length) := by
  simp only [poke, length_append, length_take_of_le h, length_drop]
  omega

theorem take_poke (h : i ≤ buf.length) (s u : Str) :
    (poke buf i (s ++ u)).take (i + s.length) = buf.take i ++ s := by
  rw [poke, ← append_assoc, append_assoc (buf.take i ++ s)]
  exact take_left' (by rw [length_append, length_take_of_le h])

/-- A terminated line is no longer than what was written before its terminator. -/
theorem cstr_prefix (l u : Str) : cstr (l ++ NUL :: u) <+: l := by
  rw [cstr]
  induction l with
  | nil => simp
  | cons c l ih =>
    rw [cons_append, takeWhile_cons]
    split
    · exact cons_prefix_cons.mpr ⟨rfl, ih⟩
    · exact nil_prefix

/-- The line ends within the memory that has been written. -/
structure Edit.Ok (e : Edit) : Prop where
  room : nbuf ≤ e.buf.length
  len : e.len < e.buf.length

section
variable {e : Edit} {dir : List Dirent}

theorem Edit.Ok.length_line (h : e.Ok) : e.line.length = e.len :=
  length_take_of_le h.len.le

/-- The buffer when the call returns. -/
theorem poke_line (e : Edit) : ∃ u, poke e.buf e.len [NUL] = e.line ++ NUL :: u :=
  ⟨_, append_assoc ..⟩

theorem fresh_ok (hist : History) : (fresh hist).Ok := by
  have : (poke (List.replicate nbuf NUL) 0 [NUL]).length = 100 := by decide
  exact ⟨by rw [fresh, this], by rw [fresh, this]; exact Nat.succ_pos 99⟩

theorem ok_poke (h : e.Ok) (hi : i ≤ e.len)
    (hn : n < e.buf.length ∨ n < i + s.length) (hist : History) :
    Edit.Ok ⟨poke e.buf i s, n, hist⟩ := by
  have hlen := length_poke (hi.trans h.len.le) s
  refine ⟨?_, ?_⟩ <;> show _ ≤ (poke e.buf i s).length <;> rw [hlen]
  · exact h.room.trans (le_max_left ..)
  · exact lt_max_iff.mpr hn

theorem line_load (e : Edit) (index : Nat) :
    (e.load index).line = e.hist.entry (index % MAX_HISTORY) := by
  have := take_poke (Nat.zero_le e.buf.length) (e.hist.entry (index % MAX_HISTORY)) [NUL]
  rwa [Nat.zero_add] at this

/-- The start of the word that ends at `i`. -/
def wordStart (buf : Str) (i : Nat) : Nat :=
  i - ((buf.take i).reverse.takeWhile fun c => c ≠ ' ' ∧ c ≠ '/').length

/-- What the scan of the directory finds for the word, clipped to `DIRSIZ` characters. -/
def candidates (dir : List Dirent) (buf : Str) (i : Nat) : List Str :=
  let len := if DIRSIZ ≤ i - wordStart buf i then DIRSIZ else i - wordStart buf i
  matches_ dir ((buf.drop (wordStart buf i)).take len) len

theorem handleTabCompletion_eq (dir : List Dirent) (buf : Str) (i : Nat) :
    handleTabCompletion dir buf i = match candidates dir buf i with
      | [name] => (poke buf (wordStart buf i) (name ++ [NUL]), wordStart buf i + name.length)
      | _ => (buf, i) := rfl

theorem wordStart_le (buf : Str) (i : Nat) : wordStart buf i ≤ i := Nat.sub_le ..

/-- `e` with the word completed to `name`. -/
def Edit.complete (e : Edit) (name : Str) : Edit :=
  { e with buf := poke e.buf (wordStart e.buf e.len) (name ++ [NUL])
           len := wordStart e.buf e.len + name.length }

theorem press_tab (max : Nat) (e : Edit) (dir : List Dirent) :
    press max e (.tab dir) = match candidates dir e.buf e.len with
      | [name] => e.complete name
      | _ => e := by
  rw [press, handleTabCompletion_eq]
  split <;> rfl

theorem line_complete (h : e.Ok) (name : Str) :
    (e.complete name).line = e.line.take (wordStart e.buf e.len) ++ name := by
  rw [Edit.line, Edit.complete, take_poke ((wordStart_le ..).trans h.len.le), Edit.line,
    take_take, min_eq_left (wordStart_le ..)]

/-- `"\b \b"`, `n` times. -/
def erasing : Nat → Str
  | 0 => []
  | n + 1 => '\x08' :: ' ' :: '\x08' :: erasing n

/-- What is written to descriptor 1 for a key. -/
def echo (max : Nat) (e : Edit) : Key → Str
  | .char c =>
    if isErase c then (if 0 < e.len then erasing 1 else [])
    else if e.len < max - 1 then [c] else []
  | .escape a b =>
    if a = '[' then
      if b = 'A' then
        if 0 < e.hist.index then erasing e.len ++ (upArrow e).line else []
      else if b = 'B' then
        if e.hist.index < e.hist.count then erasing e.len ++ (downArrow e).line else []
      else []
    else []
  | .tab dir =>
    match candidates dir e.buf e.len with
    | [] => []
    | [name] => erasing (e.len - wordStart e.buf e.len) ++ name
    | _ => "\n[ambiguous]\n".toList ++ e.line

/-- Where a key leads, and what it writes. -/
inductive Pressed (e : Edit) : Key → Edit → Str → Prop
  | nothing {k : Key} : Pressed e k e []
  | ambiguous {dir : List Dirent} : Pressed e (.tab dir) e ("\n[ambiguous]\n".toList ++ e.line)
  | erase {c : Char} : isErase c = true → 0 < e.len →
      Pressed e (.char c) { e with len := e.len - 1 } (erasing 1)
  | type {c : Char} : isErase c = false → e.len < nbuf - 1 →
      Pressed e (.char c) { e with buf := poke e.buf e.len [c], len := e.len + 1 } [c]
  | up : 0 < e.hist.index → Pressed e (.escape '[' 'A') (e.load (e.hist.index - 1))
      (erasing e.len ++ (e.load (e.hist.index - 1)).line)
  | down : e.hist.index + 1 < e.hist.count → Pressed e (.escape '[' 'B')
      (e.load (e.hist.index + 1)) (erasing e.len ++ (e.load (e.hist.index + 1)).line)
  | blank : e.hist.index + 1 = e.hist.count → Pressed e (.escape '[' 'B')
      { buf := poke e.buf 0 [NUL], len := 0, hist := { e.hist with index := e.hist.index + 1 } }
      (erasing e.len)
  | complete {dir : List Dirent} {name : Str} : candidates dir e.buf e.len = [name] →
      Pressed e (.tab dir) (e.complete name) (erasing (e.len - wordStart e.buf e.len) ++ name)

theorem pressed (e : Edit) (k : Key) : Pressed e k (press nbuf e k) (echo nbuf e k) := by
  cases k with
  | char c =>
    rw [press, echo, normal]
    split_ifs with hc hlen hlen
    · exact .erase hc hlen
    · exact .nothing
    · exact .type (by simpa using hc) hlen
    · exact .nothing
  | escape a b =>
    rw [press, echo, escape]
    unfold upArrow downArrow
    split_ifs with ha hb hi hb hi hc
    · subst ha hb; exact .up hi
    · exact .nothing
    · subst ha hb; exact .down hc
    · subst ha hb
      have h := Pressed.blank (e := e) (by omega)
      rwa [← append_nil (erasing e.len)] at h
    · exact .nothing
    · exact .nothing
    · exact .nothing
  | tab dir =>
    rw [press_tab, echo]
    rcases h : candidates dir e.buf e.len with _ | ⟨name, _ | _⟩
    · exact .nothing
    · exact .complete h
    · exact .ambiguous

theorem Edit.Ok.press (h : e.Ok) (k : Key) : (press nbuf e k).Ok := by
  have hp := pressed e k
  generalize Shell.press nbuf e k = e', echo nbuf e k = out at hp
  cases hp with
  | nothing | ambiguous => exact h
  | erase _ _ => exact ⟨h.room, (Nat.sub_le ..).trans_lt h.len⟩
  | type _ hlt =>
    have := h.room
    exact ok_poke h le_rfl (.inl (by omega)) _
  | up _ | down _ | blank _ => exact ok_poke h (Nat.zero_le _) (.inr (by simp)) _
  | complete _ => exact ok_poke h (wordStart_le ..) (.inr (by simp)) _

end

/-! ## Completion -/

/-- The name in a directory entry, which need not have a terminator. -/
def Dirent.text (de : Dirent) : Str := cstr (de.name.take DIRSIZ)

/-- The word at the end of the line. -/
def word (l : Str) : Str := l.drop (wordStart l l.length)

/-- `new` is the line `l`, or `l` with its word completed to the only name it begins. -/
structure Extends (dir : List Dirent) (l new : Str) : Prop where
  old : l <+: new
  name : new ≠ l → ∃ de, (dir.filter fun de => de.inum ≠ 0 ∧ word l <+: de.text) = [de] ∧
    new = l.take (wordStart l l.length) ++ de.text

section
variable {dir : List Dirent} {l u name : Str}

theorem wordStart_append (l u : Str) : wordStart (l ++ u) l.length = wordStart l l.length := by
  rw [wordStart, wordStart, take_left, take_length]

theorem length_word (l : Str) : (word l).length = l.length - wordStart l l.length := length_drop

theorem take_word (l : Str) : l.take (wordStart l l.length) ++ word l = l := take_append_drop ..

/-- The scan compares names with the word clipped to `DIRSIZ` characters. -/
theorem candidates_append : candidates dir (l ++ u) l.length =
    matches_ dir ((word l).take DIRSIZ) (min DIRSIZ (word l).length) := by
  have hlen : (if DIRSIZ ≤ l.length - wordStart l l.length then DIRSIZ
      else l.length - wordStart l l.length) = min DIRSIZ (word l).length := by
    rw [length_word]; split <;> omega
  simp only [candidates, wordStart_append, hlen]
  rw [drop_append_of_le_length (wordStart_le ..), ← word,
    take_append_of_le_length (min_le_right ..), ← take_eq_take_min]

theorem matches_eq_singleton {pre : Str} : matches_ dir pre n = [name] ↔
    ∃ de, (dir.filter fun de => de.inum ≠ 0 && sameStart de.name pre n) = [de] ∧ de.text = name := by
  rw [matches_]
  cases dir.filter fun de => de.inum ≠ 0 && sameStart de.name pre n with
  | nil => simp
  | cons de rest => cases rest <;> simp [Dirent.text]

/-- A word that fits a directory entry is compared as it is. -/
theorem sameStart_iff {de : Dirent} {w : Str} (hlen : w.length ≤ DIRSIZ) (hnul : NUL ∉ w) :
    sameStart de.name w w.length = true ↔ w <+: de.text := by
  have hw : cstr w = w := by
    rw [cstr, takeWhile_eq_self_iff]
    exact fun c hc => decide_eq_true fun h => hnul (h ▸ hc)
  rw [sameStart, decide_eq_true_eq, hw, take_length, Dirent.text, cstr, cstr,
    ← take_takeWhile, prefix_take_iff, prefix_iff_eq_take, eq_comm]
  exact (and_iff_left hlen).symm

/-- A completion extends the line and gives the whole name exactly if, when one entry is
found, the word is no longer than a name and has no terminator in it. -/
theorem tab_extends (dir : List Dirent) (l u : Str) :
    Extends dir l ((handleTabCompletion dir (l ++ u) l.length).1.take
      (handleTabCompletion dir (l ++ u) l.length).2) ↔
    ∀ name, candidates dir (l ++ u) l.length = [name] → (word l).length ≤ DIRSIZ ∧ NUL ∉ word l := by
  have hstart : wordStart l l.length ≤ (l ++ u).length := by
    rw [length_append]; exact (wordStart_le ..).trans (Nat.le_add_right ..)
  rw [handleTabCompletion_eq]
  split
  · next name hc =>
    have hnew : (poke (l ++ u) (wordStart (l ++ u) l.length) (name ++ [NUL])).take
        (wordStart (l ++ u) l.length + name.length) = l.take (wordStart l l.length) ++ name := by
      rw [wordStart_append, take_poke hstart, take_append_of_le_length (wordStart_le ..)]
    simp only [hnew, hc, List.cons.injEq, and_true, forall_eq']
    rw [candidates_append, matches_eq_singleton] at hc
    obtain ⟨de, hde, rfl⟩ := hc
    have htext : de.text.length ≤ DIRSIZ ∧ NUL ∉ de.text := by
      refine ⟨( takeWhile_prefix _).length_le.trans ?_, fun h => ?_⟩
      · rw [length_take]; exact min_le_left ..
      · exact absurd (mem_takeWhile_imp h) (by decide)
    constructor
    · rintro ⟨hold, -⟩
      have hold : l.take (wordStart l l.length) ++ word l <+:
          l.take (wordStart l l.length) ++ de.text :=
        by rwa [take_word]
      rw [prefix_append_right_inj] at hold
      exact ⟨hold.length_le.trans htext.1, fun h => htext.2 (hold.subset h)⟩
    · rintro ⟨hlen, hnul⟩
      rw [take_of_length_le hlen, min_eq_right hlen] at hde
      have hfilter : (dir.filter fun de => de.inum ≠ 0 ∧ word l <+: de.text) = [de] := by
        rw [← hde]
        refine filter_congr fun de _ => ?_
        rw [Bool.eq_iff_iff]
        simp [sameStart_iff hlen hnul]
      have hpre : word l <+: de.text := by
        have hmem : de ∈ dir.filter fun de => de.inum ≠ 0 ∧ word l <+: de.text := by
          rw [hfilter]; exact mem_cons_self
        exact (of_decide_eq_true (mem_filter.mp hmem).2).2
      refine ⟨?_, fun _ => ⟨de, hfilter, rfl⟩⟩
      have := (prefix_append_right_inj (l.take (wordStart l l.length))).mpr hpre
      rwa [take_word] at this
  · next hc =>
    have hnew : (l ++ u).take l.length = l := take_left
    exact ⟨fun _ name h => absurd h (hc name), fun _ => ⟨by rw [hnew], absurd hnew⟩⟩

end

/-- A word of 20 letters, and a file with the first 14 of them as its name. -/
theorem tab_shortens : ¬ Extends [⟨1, "abcdefghijklmn".toList⟩] "abcdefghijklmnopqrst".toList
    ((handleTabCompletion [⟨1, "abcdefghijklmn".toList⟩] "abcdefghijklmnopqrst".toList 20).1.take
      (handleTabCompletion [⟨1, "abcdefghijklmn".toList⟩] "abcdefghijklmnopqrst".toList 20).2) :=
  fun h => absurd h.old (by decide +kernel)

/-! ## `cd` -/

/-- The line with which a call of `readline` ends. -/
def entered (dirs : Nat → List Dirent) (hist : History) (input : Str) : Str :=
  ((keys dirs input).1.foldl (press nbuf) (fresh hist)).line

theorem Edit.Ok.keys (h : e.Ok) (ks : List Key) : (ks.foldl (Shell.press nbuf) e).Ok := by
  induction ks generalizing e with
  | nil => exact h
  | cons k ks ih => exact ih (h.press k)

/-- The buffer when `getcmd` returns, after Enter and at the end of the input. -/
theorem getcmd_entered (dirs : Nat → List Dirent) (hist : History) (input : Str) :
    ∃ u, (getcmd dirs nbuf hist input).2.1 = entered dirs hist input ++ NUL :: u := by
  have hok := (fresh_ok hist).keys (keys dirs input).1
  have hret : (getcmd dirs nbuf hist input).2.1 = poke (readLoop dirs nbuf input (fresh hist)).1.buf
      (readLoop dirs nbuf input (fresh hist)).1.len [NUL] := rfl
  rw [hret, readLoop_keys, entered]
  generalize (keys dirs input).1.foldl (press nbuf) (fresh hist) = e at hok ⊢
  cases (keys dirs input).2.2 with
  | true => exact poke_line e
  | false =>
    have hline : (enter e).line = e.line := by
      have := take_poke hok.len.le [] [NUL]
      rwa [append_nil] at this
    exact hline ▸ poke_line (enter e)

/-- For every way of entering it, `chdir` gets the path of a `cd` line exactly if the path
is empty. -/
theorem cd_path {dirs : Nat → List Dirent} {hist : History} {input path : Str}
    (hp : ∀ c ∈ path, Printable c) (h : entered dirs hist input = "cd ".toList ++ path) :
    handle (getcmd dirs nbuf hist input).2.1 = .chdir path ↔ path = [] := by
  have hnul : NUL ∉ "cd ".toList ++ path := fun hm =>
    (mem_append.mp hm).elim (by decide) fun hm => (hp _ hm).ne.2.2.2.2.2 rfl
  obtain ⟨u, hu⟩ := getcmd_entered dirs hist input
  rw [hu, h, handle_line hnul]
  show Event.chdir path.dropLast = .chdir path ↔ _
  rw [Event.chdir.injEq]
  constructor
  · intro he
    have := congrArg List.length he
    rw [length_dropLast] at this
    exact length_eq_zero_iff.mp (by omega)
  · rintro rfl; rfl

/-- `cd tmp` goes to `tm`, whether Enter or the end of the input ends the line. -/
theorem cd_chops :
    (entered (fun _ => []) ⟨fun _ => [], 0, 0⟩ "cd tmp\n".toList = "cd tmp".toList ∧
      handle (getcmd (fun _ => []) nbuf ⟨fun _ => [], 0, 0⟩ "cd tmp\n".toList).2.1 =
        .chdir "tm".toList) ∧
    entered (fun _ => []) ⟨fun _ => [], 0, 0⟩ "cd tmp".toList = "cd tmp".toList ∧
      handle (getcmd (fun _ => []) nbuf ⟨fun _ => [], 0, 0⟩ "cd tmp".toList).2.1 =
        .chdir "tm".toList := by
  decide +kernel

theorem cd_path_tmp : handle (getcmd (fun _ => []) nbuf ⟨fun _ => [], 0, 0⟩ "cd tmp\n".toList).2.1 ≠
    .chdir "tmp".toList := fun h =>
  absurd ((cd_path (by decide) (by decide +kernel)).mp h) (by decide)

/-! ## Calls of `readline`, one after the other -/

/-- The row of the cursor, and its column. -/
structure Screen where
  cell : Nat → Char
  col : Nat

def Screen.put (scr : Screen) (c : Char) : Screen :=
  if c = '\n' then ⟨fun _ => ' ', 0⟩
  else if c = '\x08' then { scr with col := scr.col - 1 }
  else ⟨fun i => if i = scr.col then c else scr.cell i, scr.col + 1⟩

structure Term where
  edit : Edit
  screen : Screen
  /-- the keys pressed at this prompt -/
  typed : List Key
  /-- the lines entered -/
  lines : List Str

/-- A key, or one of the two ways in which a call ends; the next prompt is then up on the
given screen. -/
inductive Term.Act
  | key (k : Key)
  | enter (screen : Screen)
  | eof (screen : Screen)

/-- After an empty line the shell is gone, and there is no next prompt. -/
def Term.step (t : Term) : Term.Act → Option Term
  | .key k =>
    some ⟨press nbuf t.edit k, (echo nbuf t.edit k).foldl Screen.put t.screen, t.typed ++ [k], t.lines⟩
  | .enter screen =>
    let line := cstr (poke t.edit.buf t.edit.len [NUL])
    if line = [] then none else some ⟨fresh (enter t.edit).hist, screen, [], t.lines ++ [line]⟩
  | .eof screen =>
    if cstr (poke t.edit.buf t.edit.len [NUL]) = [] then none
    else some ⟨fresh t.edit.hist, screen, [], t.lines⟩

def Term.start (screen : Screen) : Term := ⟨fresh ⟨fun _ => [], 0, 0⟩, screen, [], []⟩

/-- The first prompt. -/
def Term.Start (t : Term) : Prop := ∃ screen, t = .start screen

/-- Where an action leads. -/
inductive Term.Next (t : Term) : Term.Act → Term → Prop
  | key {k : Key} : Next t (.key k) ⟨press nbuf t.edit k,
      (echo nbuf t.edit k).foldl Screen.put t.screen, t.typed ++ [k], t.lines⟩
  | enter {screen : Screen} {line : Str} : line = cstr (poke t.edit.buf t.edit.len [NUL]) →
      line ≠ [] → Next t (.enter screen) ⟨fresh (enter t.edit).hist, screen, [], t.lines ++ [line]⟩
  | eof {screen : Screen} : Next t (.eof screen) ⟨fresh t.edit.hist, screen, [], t.lines⟩

theorem Term.next {t t' : Term} {a : Term.Act} (h : t.step a = some t') : t.Next a t' := by
  cases a with
  | key k => cases h; exact .key
  | enter screen =>
    rw [Term.step] at h
    split_ifs at h with hl
    cases h; exact .enter rfl hl
  | eof screen =>
    rw [Term.step] at h
    split_ifs at h
    cases h; exact .eof

/-- The rows after Enter: as before, or with the line in the next one. -/
theorem enter_entry (e : Edit) (i : Nat) : (enter e).hist.entry i = e.hist.entry i ∨
    i < MAX_HISTORY ∧ (enter e).hist.entry i = cstr (poke e.buf e.len [NUL]) := by
  simp only [enter]
  split
  · by_cases hi : i = e.hist.count % MAX_HISTORY
    · exact .inr ⟨hi ▸ Nat.mod_lt _ (by decide), if_pos hi⟩
    · exact .inl (if_neg hi)
  · exact .inl rfl

theorem enter_line (e : Edit) : cstr (poke e.buf e.len [NUL]) <+: e.line := by
  obtain ⟨u, hu⟩ := poke_line e
  rw [hu]
  exact cstr_prefix ..

/-! ## The buffer -/

/-- The line fits the buffer of `main`, nothing was written behind the buffer, and the
history is in its rows. -/
structure InBounds (e : Edit) : Prop where
  len : e.len ≤ nbuf - 1
  buf : e.buf.length = nbuf
  rows : ∀ i, (e.hist.entry i).length ≤ nbuf - 1
  history : ∀ i, MAX_HISTORY ≤ i → e.hist.entry i = []

/-- A completed line fits the buffer. -/
def Fits (t : Term) : Term.Act → Prop
  | .key (.tab dir) => ∀ name, candidates dir t.edit.buf t.edit.len = [name] →
      wordStart t.edit.buf t.edit.len + name.length ≤ nbuf - 1
  | _ => True

section
variable {e e' : Edit} {t : Term} {h : List (Term × Term.Act)}

theorem InBounds.poke (hb : InBounds e) (hs : i + s.length ≤ nbuf)
    (hn : n ≤ nbuf - 1) (index : Nat) : InBounds ⟨poke e.buf i s, n, { e.hist with index }⟩ := by
  refine ⟨hn, ?_, hb.rows, hb.history⟩
  rw [length_poke (by rw [hb.buf]; omega), hb.buf]
  exact max_eq_left hs

theorem InBounds.pressed (hb : InBounds t.edit) (hp : Pressed t.edit k e out)
    (hfit : Fits t (.key k)) : InBounds e := by
  have hlen := hb.len
  have hload : ∀ index, InBounds (t.edit.load index) := fun index => by
    have hrow := hb.rows (index % MAX_HISTORY)
    exact hb.poke (by rw [Nat.zero_add, length_append]; exact Nat.succ_le_succ hrow) hrow index
  cases hp with
  | nothing | ambiguous => exact hb
  | erase _ _ => exact ⟨(Nat.sub_le ..).trans hlen, hb.buf, hb.rows, hb.history⟩
  | type _ hlt => exact hb.poke (Nat.le_of_lt (Nat.add_lt_of_lt_sub hlt)) hlt _
  | up _ | down _ => exact hload _
  | blank _ => exact hb.poke (by decide) (Nat.zero_le _) _
  | complete hc =>
    have hfit := hfit _ hc
    exact hb.poke (by rw [length_append, ← Nat.add_assoc]; exact Nat.succ_le_succ hfit) hfit _

theorem inBounds_fresh {hist : History} (hrows : ∀ i, (hist.entry i).length ≤ nbuf - 1)
    (hh : ∀ i, MAX_HISTORY ≤ i → hist.entry i = []) : InBounds (fresh hist) :=
  ⟨Nat.zero_le _, (by decide : (poke (List.replicate nbuf NUL) 0 [NUL]).length = nbuf), hrows, hh⟩

theorem InBounds.enter (hb : InBounds e) : InBounds (fresh (enter e).hist) := by
  refine inBounds_fresh (fun i => ?_) (fun i hi => ?_) <;> rcases enter_entry e i with h | ⟨hlt, h⟩
  · exact h ▸ hb.rows i
  · rw [h]
    exact (enter_line e).length_le.trans ((length_take_le ..).trans hb.len)
  · exact h ▸ hb.history i hi
  · omega

theorem inBounds_run (r : Run Term.Start Term.step h t) (hfit : ∀ x ∈ h, Fits x.1 x.2) :
    InBounds t.edit := by
  refine r.inv_of_steps (I := fun t => InBounds t.edit) ?_ ?_ hfit
  · rintro _ ⟨screen, rfl⟩
    exact inBounds_fresh (fun _ => Nat.zero_le _) (fun _ _ => rfl)
  · intro t a t' hb hc hst
    cases Term.next hst with
    | key => exact hb.pressed (pressed ..) hc
    | enter _ _ => exact hb.enter
    | eof => exact inBounds_fresh hb.rows hb.history

theorem InBounds.row_lt (hb : InBounds e) (i : Nat) : (e.hist.entry i).length < MAX_LINE :=
  (hb.rows i).trans_lt (by decide)

/-- While every completed line fits, the line fits the buffer and nothing is written
outside it; whenever the call returns, the line is terminated. -/
theorem readline_in_bounds (r : Run Term.Start Term.step h t) (hfit : ∀ x ∈ h, Fits x.1 x.2) :
    InBounds t.edit ∧ (∀ i, (t.edit.hist.entry i).length < MAX_LINE) ∧
      (poke t.edit.buf t.edit.len [NUL]).length = nbuf ∧
      (poke t.edit.buf t.edit.len [NUL])[t.edit.len]? = some NUL := by
  have hb := inBounds_run r hfit
  have hend := hb.poke (s := [NUL]) (Nat.add_le_of_le_sub (by decide) hb.len) hb.len 0
  have hline : t.edit.line.length = t.edit.len :=
    length_take_of_le (hb.buf ▸ hb.len.trans (Nat.sub_le ..))
  obtain ⟨u, hu⟩ := poke_line t.edit
  refine ⟨hb, hb.row_lt, hend.buf, ?_⟩
  rw [hu, List.getElem?_append_right hline.le, hline, Nat.sub_self]
  rfl

end

/-- Keys for the characters of a line. -/
def typing (l : Str) : List Term.Act := l.map fun c => .key (.char c)

def prompt : Screen := "$ ".toList.foldl Screen.put ⟨fun _ => ' ', 0⟩

theorem start_prompt : Term.Start (.start prompt) := ⟨_, rfl⟩

theorem run_from_prompt {β : Type} {init : Term → Prop} (as : List Term.Act) {f : Term → β} {v : β}
    (hi : init (.start prompt)) (he : (exec Term.step (.start prompt) as).map f = some v) :
    ∃ t, Run init Term.step (hist Term.step (.start prompt) as) t ∧ f t = v :=
  run_of_exec hi he

/-- `l` and Tab. -/
theorem readline_in_bounds_ls : ∃ h t, Run Term.Start Term.step h t ∧ t.edit.line = "ls".toList ∧
    InBounds t.edit := by
  obtain ⟨t, r, ht⟩ := run_from_prompt [.key (.char 'l'), .key (.tab [⟨1, ['.']⟩, ⟨2, ['l', 's']⟩])]
    (f := fun t => t.edit.line) (v := "ls".toList) start_prompt (by decide +kernel)
  refine ⟨_, t, r, ht, (readline_in_bounds r fun x hx => ?_).1⟩
  rcases mem_cons.mp hx with rfl | hx
  · trivial
  · obtain rfl := mem_singleton.mp hx
    intro name hname
    obtain rfl : ['l', 's'] = name := singleton_inj.mp (Eq.trans (by decide +kernel) hname)
    decide +kernel

/-- 97 letters, a blank, `a` and Tab: the only name that begins with `a` has 14 letters. -/
theorem completion_overruns : ∃ h t, Run Term.Start Term.step h t ∧ t.edit.len = 112 ∧
    t.edit.buf.length = 113 := by
  obtain ⟨t, r, ht⟩ := run_from_prompt (typing (List.replicate 97 'x' ++ [' ', 'a']) ++
      [.key (.tab [⟨1, ['.']⟩, ⟨1, ['.', '.']⟩, ⟨2, "abcdefghijklmn".toList⟩])])
    (f := fun t => (t.edit.len, t.edit.buf.length)) (v := (112, 113))
    start_prompt (by decide +kernel)
  exact ⟨_, t, r, congrArg Prod.fst ht, congrArg Prod.snd ht⟩

/-! ## The history -/

inductive Arrow
  | up
  | down

def Arrow.key : Arrow → Key
  | .up => .escape '[' 'A'
  | .down => .escape '[' 'B'

/-- The lines entered, each next to a different one. -/
def history (lines : List Str) : List Str :=
  lines.foldl (fun H l => if H.getLast? = some l then H else H ++ [l]) []

/-- How far back the arrows lead in a history of `n` lines, of which the last `MAX_HISTORY`
are kept. -/
def position (n : Nat) (arrows : List Arrow) : Nat :=
  arrows.foldl (fun k a => match a with
    | .up => min (k + 1) (min n MAX_HISTORY)
    | .down => k - 1) 0

/-- The line `k` from the end; none for `k = 0`. -/
def shown (H : List Str) (k : Nat) : Str := ([] :: H.reverse).getD k []

/-- No Up at the oldest line that is kept, if there are older ones; the input does not end
while the history is being looked at. -/
def Browses (t : Term) : Term.Act → Prop
  | .key (.escape '[' 'A') => t.edit.hist.index = 0 ∨
      t.edit.hist.count < t.edit.hist.index + MAX_HISTORY
  | .eof _ => t.edit.hist.index = t.edit.hist.count
  | _ => True

/-- The last lines of `H` are in the ring. -/
structure Rows (H : List Str) (hist : History) : Prop where
  count : hist.count = H.length
  entry : ∀ i l, H[i]? = some l → H.length ≤ i + MAX_HISTORY → hist.entry (i % MAX_HISTORY) = l

structure Browsing (t : Term) : Prop where
  rows : Rows (history t.lines) t.edit.hist
  index : t.edit.hist.index ≤ t.edit.hist.count
  shows : ∀ arrows, t.typed = arrows.map Arrow.key →
    t.edit.hist.index + position (history t.lines).length arrows = t.edit.hist.count ∧
    t.edit.line = shown (history t.lines) (position (history t.lines).length arrows)

section
variable {H : List Str} {hist : History} {t t' : Term} {h : List (Term × Term.Act)} {l : Str}

theorem shown_back (h : H[i]? = some l) {k : Nat} (hk : i + k = H.length) : shown H k = l := by
  have hi := (List.getElem?_eq_some_iff.mp h).1
  obtain ⟨k, rfl⟩ : ∃ m, k = m + 1 := ⟨k - 1, by omega⟩
  rw [shown, getD_cons_succ, getD_eq_getElem?_getD, List.getElem?_reverse (by omega),
    show H.length - 1 - k = i by omega, h]
  rfl

theorem Rows.load (hr : Rows H hist) (hi : i < H.length) {k : Nat} (hk : i + k = H.length)
    (hroom : k ≤ MAX_HISTORY) : hist.entry (i % MAX_HISTORY) = shown H k := by
  have hl := List.getElem?_eq_getElem hi
  rw [hr.entry i _ hl (by omega), shown_back hl hk]

/-- Enter puts the line in the row after the newest, unless it is there already. -/
theorem Rows.enter (hr : Rows H e.hist) (hl : cstr (poke e.buf e.len [NUL]) = l)
    (hne : l ≠ []) : Rows (if H.getLast? = some l then H else H ++ [l]) (enter e).hist := by
  have hlen : 0 < e.len := by
    by_contra h0
    have := hl ▸ enter_line e
    rw [Edit.line, Nat.eq_zero_of_not_pos h0, take_zero, prefix_nil] at this
    exact hne this
  have hlast : (e.hist.count = 0 ∨ l ≠ e.hist.entry ((e.hist.count - 1) % MAX_HISTORY)) ↔
      H.getLast? ≠ some l := by
    rw [hr.count, List.getLast?_eq_getElem?]
    rcases Nat.eq_zero_or_pos H.length with h0 | h0
    · simp [length_eq_zero_iff.mp h0]
    · have hget := List.getElem?_eq_getElem (show H.length - 1 < H.length by omega)
      rw [hr.entry _ _ hget (show H.length ≤ H.length - 1 + 16 by omega), hget]
      simp [Nat.ne_of_gt h0, eq_comm]
  simp only [Shell.enter, hl, hlen, true_and, hlast]
  by_cases hrep : H.getLast? = some l
  · rw [if_pos hrep, if_neg (not_not.mpr hrep)]
    exact ⟨hr.count, hr.entry⟩
  · rw [if_neg hrep, if_pos hrep]
    refine ⟨by simp [hr.count], fun i l' hi hroom => ?_⟩
    rw [length_append, length_singleton] at hroom
    show (if i % MAX_HISTORY = e.hist.count % MAX_HISTORY then l else _) = l'
    rcases Nat.lt_or_ge i H.length with hlt | hge
    · rw [List.getElem?_append_left hlt] at hi
      rw [if_neg, hr.entry i l' hi (by omega)]
      rw [hr.count]
      -- two rows less than `MAX_HISTORY` apart are different
      show ¬ i % 16 = H.length % 16
      have : H.length + 1 ≤ i + 16 := hroom
      omega
    · have hil := (List.getElem?_eq_some_iff.mp hi).1
      rw [length_append, length_singleton] at hil
      obtain rfl : i = H.length := by omega
      rw [List.getElem?_concat_length] at hi
      rw [hr.count, if_pos rfl]
      exact Option.some.inj hi

theorem Browsing.fresh {screen : Screen} {lines : List Str} (hr : Rows (history lines) hist)
    (hi : hist.index = hist.count) : Browsing ⟨Shell.fresh hist, screen, [], lines⟩ := by
  refine ⟨hr, hi.le, fun arrows ha => ?_⟩
  obtain rfl := map_eq_nil_iff.mp ha.symm
  exact ⟨hi, rfl⟩

theorem Rows.index (hr : Rows H hist) (index : Nat) : Rows H { hist with index } := ⟨hr.count, hr.entry⟩

theorem position_snoc (n : Nat) (as : List Arrow) (a : Arrow) : position n (as ++ [a]) = match a with
    | .up => min (position n as + 1) (min n MAX_HISTORY)
    | .down => position n as - 1 := by
  rw [position, foldl_append]
  rfl

theorem position_le (n : Nat) (as : List Arrow) : position n as ≤ min n MAX_HISTORY := by
  induction as using List.reverseRecOn with
  | nil => exact Nat.zero_le _
  | append_singleton as a ih =>
    rw [position_snoc]
    cases a with
    | up => exact min_le_right ..
    | down => exact (Nat.sub_le ..).trans ih

theorem Browsing.press (hb : Browsing t) (hok : Browses t (.key k)) (screen : Screen) :
    Browsing ⟨press nbuf t.edit k, screen, t.typed ++ [k], t.lines⟩ := by
  obtain ⟨hr, hi, hs⟩ := hb
  have hcount := hr.count
  have hrows : Rows (history t.lines) (Shell.press nbuf t.edit k).hist ∧
      (Shell.press nbuf t.edit k).hist.index ≤ (Shell.press nbuf t.edit k).hist.count := by
    have hp := pressed t.edit k
    generalize Shell.press nbuf t.edit k = e, echo nbuf t.edit k = out at hp
    cases hp with
    | nothing | ambiguous | erase _ _ | type _ _ | complete _ => exact ⟨hr, hi⟩
    | up _ => exact ⟨hr.index _, (Nat.sub_le ..).trans hi⟩
    | down hlt => exact ⟨hr.index _, hlt.le⟩
    | blank heq => exact ⟨hr.index _, heq.le⟩
  refine ⟨hrows.1, hrows.2, fun arrows ha => ?_⟩
  obtain ⟨as, _, rfl, htyped, ha⟩ := map_eq_append_iff.mp ha.symm
  obtain ⟨a, rfl, rfl⟩ := map_eq_singleton_iff.mp ha
  obtain ⟨hpos, hline⟩ := hs as htyped.symm
  have hle := position_le (history t.lines).length as
  rw [position_snoc]
  generalize position (history t.lines).length as = k at hpos hline hle
  cases a with
  | up =>
    show (upArrow t.edit).hist.index + min (k + 1) _ = (upArrow t.edit).hist.count ∧
      (upArrow t.edit).line = shown _ (min (k + 1) _)
    rw [upArrow]
    split_ifs with h0
    · have hk : min (k + 1) (min (history t.lines).length MAX_HISTORY) = k + 1 := by
        have := hok.resolve_left (by omega)
        omega
      have hk' : t.edit.hist.index - 1 + (k + 1) = (history t.lines).length := by omega
      rw [hk, line_load]
      exact ⟨hk'.trans hcount.symm, hr.load (by omega) hk' (by omega)⟩
    · have hk : min (k + 1) (min (history t.lines).length MAX_HISTORY) = k := by omega
      rw [hk]
      exact ⟨hpos, hline⟩
  | down =>
    show (downArrow t.edit).hist.index + (k - 1) = (downArrow t.edit).hist.count ∧
      (downArrow t.edit).line = shown _ (k - 1)
    rw [downArrow]
    split_ifs with hlt hlt'
    · have hk' : t.edit.hist.index + 1 + (k - 1) = (history t.lines).length := by omega
      rw [line_load]
      exact ⟨hk'.trans hcount.symm, hr.load (by omega) hk' (by omega)⟩
    · obtain rfl : k = 1 := by omega
      exact ⟨hpos, rfl⟩
    · obtain rfl : k = 0 := by omega
      exact ⟨hpos, hline⟩

/-- At a prompt where only arrows have been pressed, the line shown is the one they lead to;
and every line that is kept fits its row. -/
theorem arrows_show_history (r : Run Term.Start Term.step h t)
    (hok : ∀ x ∈ h, Browses x.1 x.2 ∧ Fits x.1 x.2)
    {arrows : List Arrow} (ha : t.typed = arrows.map Arrow.key) :
    t.edit.line = shown (history t.lines) (position (history t.lines).length arrows) ∧
      ∀ i, (t.edit.hist.entry i).length < MAX_LINE := by
  have hb : Browsing t := by
    refine r.inv_of_steps ?_ ?_ fun x hx => (hok x hx).1
    · rintro _ ⟨screen, rfl⟩
      exact .fresh ⟨rfl, fun i l hi => absurd hi (by simp [history])⟩ rfl
    · intro t a t' hb hc hst
      cases Term.next hst with
      | key => exact hb.press hc _
      | @enter _ line hl hne =>
        refine .fresh ?_ rfl
        rw [history, foldl_append]
        exact hb.rows.enter hl.symm hne
      | eof => exact .fresh hb.rows hc
  exact ⟨(hb.shows arrows ha).2, (inBounds_run r fun x hx => (hok x hx).2).row_lt⟩

end

/-- The lines `a`, `b` and so on, `n` of them, and then Up `m` times. -/
def linesThenUp (n m : Nat) : List Term.Act :=
  (List.range n).flatMap (fun i => typing [Char.ofNat (97 + i)] ++ [.enter prompt]) ++
    List.replicate m (.key Arrow.up.key)

deriving instance DecidableEq for Dirent, Key

theorem linesThenUp_run (n m : Nat) (l : Str) (lines : List Str)
    (h : (exec Term.step (.start prompt) (linesThenUp n m)).map
      (fun t => (t.edit.line, t.typed, t.lines)) = some (l, List.replicate m Arrow.up.key, lines)) :
    ∃ t, Run Term.Start Term.step (hist Term.step (.start prompt) (linesThenUp n m)) t ∧
      t.edit.line = l ∧ t.typed = (List.replicate m Arrow.up).map Arrow.key ∧ t.lines = lines := by
  obtain ⟨t, r, ht⟩ := run_from_prompt _ start_prompt h
  simp only [Prod.mk.injEq] at ht
  exact ⟨t, r, ht.1, by rw [map_replicate]; exact ht.2.1, ht.2.2⟩

/-- After 17 lines, Up shows the last one again when it is pressed for the 17th time. -/
theorem up_shows_newest : ∃ h t, Run Term.Start Term.step h t ∧
    t.typed = (List.replicate 17 Arrow.up).map Arrow.key ∧ t.edit.line = ['q'] ∧
    shown (history t.lines) (position (history t.lines).length (List.replicate 17 .up)) = ['b'] := by
  obtain ⟨t, r, hl, ht, hlines⟩ := linesThenUp_run 17 17 ['q']
    ((List.range 17).map fun i => [Char.ofNat (97 + i)]) (by decide +kernel)
  exact ⟨_, t, r, ht, hl, by rw [hlines]; decide +kernel⟩

theorem arrows_show_history_two : ∃ h t, Run Term.Start Term.step h t ∧ t.edit.line = ['a'] ∧
    t.edit.line = shown (history t.lines) (position (history t.lines).length [.up, .up]) := by
  obtain ⟨t, r, hl, ht, -⟩ := linesThenUp_run 2 2 ['a'] [['a'], ['b']]
    (by decide +kernel)
  refine ⟨_, t, r, hl, (arrows_show_history r (fun x hx => ⟨?_, ?_⟩) ht).1⟩
  · have hroom : ∀ x ∈ hist Term.step (.start prompt) (linesThenUp 2 2),
        x.1.edit.hist.count < x.1.edit.hist.index + MAX_HISTORY := by decide +kernel
    have heof : ∀ a ∈ linesThenUp 2 2, ∀ screen, a ≠ .eof screen := by
      simp [linesThenUp, typing, range_succ]
    rw [Browses.eq_def]
    split
    · exact .inr (hroom x hx)
    · next heq => exact absurd heq (heof _ (mem_hist hx) _)
    · trivial
  · have htab : ∀ a ∈ linesThenUp 2 2, ∀ dir, a ≠ .key (.tab dir) := by
      simp [linesThenUp, typing, range_succ, Arrow.key]
    rw [Fits.eq_def]
    split
    · next heq => exact absurd heq (htab _ (mem_hist hx) _)
    · trivial

/-! ## The screen -/

/-- The row of the cursor shows `l` from column `start` on, blanks behind it, and the cursor
is at the end of `l`. -/
structure Shows (scr : Screen) (start : Nat) (l : Str) : Prop where
  chars : ∀ c ∈ l, Printable c
  col : scr.col = start + l.length
  cell : ∀ i, scr.cell (start + i) = l[i]?.getD ' '

/-- Characters typed and the names in directories are printable; a prompt comes up with
nothing displayed behind the cursor. -/
def Displays : Term.Act → Prop
  | .key (.char c) => Printable c ∨ isErase c = true
  | .key (.escape _ _) => True
  | .key (.tab dir) => ∀ de ∈ dir, ∀ c ∈ de.text, Printable c
  | .enter screen | .eof screen => Shows screen screen.col []

/-- The first prompt, with nothing displayed behind the cursor. -/
def Term.Clear (t : Term) : Prop := ∃ screen, Shows screen screen.col [] ∧ t = .start screen

structure Displayed (t : Term) : Prop where
  ok : t.edit.Ok
  rows : ∀ i, ∀ c ∈ t.edit.hist.entry i, Printable c
  shows : ∃ start, Shows t.screen start t.edit.line

section
variable {scr : Screen} {start : Nat} {l : Str} {c : Char} {e : Edit} {t : Term}
  {h : List (Term × Term.Act)}

theorem Shows.put (hs : Shows scr start l) (hc : Printable c) : Shows (scr.put c) start (l ++ [c]) := by
  rw [Screen.put, if_neg hc.ne.1, if_neg hc.ne.2.2.2.1]
  refine ⟨forall_mem_append.mpr ⟨hs.chars, by simpa using hc⟩, ?_, fun i => ?_⟩
  · rw [hs.col, length_append]; rfl
  · show (if start + i = scr.col then c else scr.cell (start + i)) = _
    rw [hs.col, hs.cell]
    rcases Nat.lt_trichotomy i l.length with hi | rfl | hi
    · rw [if_neg (by omega), List.getElem?_append_left hi]
    · simp
    · rw [if_neg (by omega), List.getElem?_eq_none hi.le, List.getElem?_eq_none (by simp; omega)]

theorem Shows.puts (hs : Shows scr start l) (hout : ∀ c ∈ out, Printable c) :
    Shows (out.foldl Screen.put scr) start (l ++ out) := by
  induction out generalizing scr l with
  | nil => rwa [append_nil]
  | cons c out ih =>
    obtain ⟨hc, hout⟩ := forall_mem_cons.mp hout
    have := ih (hs.put hc) hout
    rwa [append_assoc] at this

theorem Shows.erase (hs : Shows scr start l) (hn : n ≤ l.length) :
    Shows ((erasing n).foldl Screen.put scr) start (l.take (l.length - n)) := by
  induction n generalizing scr l with
  | zero => rwa [Nat.sub_zero, take_length]
  | succ n ih =>
    have hone : Shows ((erasing 1).foldl Screen.put scr) start l.dropLast := by
      refine ⟨fun c hc => hs.chars c (mem_of_mem_dropLast hc), ?_, fun i => ?_⟩
      · show scr.col - 1 + 1 - 1 = _
        rw [hs.col, length_dropLast]; omega
      · show (if start + i = scr.col - 1 then ' ' else scr.cell (start + i)) = _
        rw [hs.col, hs.cell, List.getElem?_dropLast]
        rcases Nat.lt_trichotomy i (l.length - 1) with hi | rfl | hi
        · rw [if_neg (by omega), if_pos hi]
        · rw [if_pos (by omega), if_neg (lt_irrefl _)]; rfl
        · rw [if_neg (by omega), if_neg (by omega), List.getElem?_eq_none (by omega)]
    have := ih hone (by rw [length_dropLast]; omega)
    rwa [dropLast_eq_take, take_take, length_take, min_eq_left (by omega),
      min_eq_left (by omega), Nat.sub_sub, Nat.add_comm 1] at this

/-- The line is shown again from the start of a new row. -/
theorem Shows.ambiguous (scr : Screen) : Shows ("\n[ambiguous]\n".toList.foldl Screen.put scr) 0 [] :=
  ⟨by simp, rfl, fun _ => rfl⟩

theorem printable_of_candidates {dir : List Dirent} (hd : ∀ de ∈ dir, ∀ c ∈ de.text, Printable c)
    {name : Str} (hc : candidates dir buf i = [name]) : ∀ c ∈ name, Printable c := by
  obtain ⟨de, hde, rfl⟩ := matches_eq_singleton.mp hc
  exact hd de (mem_of_mem_filter (hde ▸ mem_cons_self))

theorem Displayed.press (hd : Displayed t) (hk : Displays (.key k)) :
    Displayed ⟨press nbuf t.edit k, (echo nbuf t.edit k).foldl Screen.put t.screen,
      t.typed ++ [k], t.lines⟩ := by
  obtain ⟨hok, hrows, start, hs⟩ := hd
  have hlen := hok.length_line
  refine ⟨hok.press k, ?_, ?_⟩
  all_goals
    have hp := pressed t.edit k
    generalize Shell.press nbuf t.edit k = e, echo nbuf t.edit k = out at hp
  · cases hp <;> exact hrows
  · -- the whole line is erased before a row of the history is shown
    have hclear : Shows ((erasing t.edit.len).foldl Screen.put t.screen) start [] := by
      have := hs.erase hlen.ge
      rwa [hlen, Nat.sub_self] at this
    have hload : ∀ index, Shows ((erasing t.edit.len ++ (t.edit.load index).line).foldl Screen.put
        t.screen) start (t.edit.load index).line := fun index => by
      rw [foldl_append]
      exact hclear.puts (line_load t.edit index ▸ hrows _)
    cases hp with
    | nothing => exact ⟨start, hs⟩
    | ambiguous =>
      rw [foldl_append]
      exact ⟨0, (Shows.ambiguous _).puts hs.chars⟩
    | erase _ hpos =>
      have := hs.erase (n := 1) (by omega)
      rw [Edit.line, take_take, ← Edit.line, hlen, min_eq_left (Nat.sub_le ..)] at this
      exact ⟨start, this⟩
    | type hc hlt =>
      have := hs.put (hk.resolve_right (by simp [hc]))
      rw [Edit.line, ← take_poke hok.len.le _ []] at this
      exact ⟨start, this⟩
    | up _ | down _ => exact ⟨start, hload _⟩
    | blank _ => exact ⟨start, hclear⟩
    | complete hc =>
      have := (hs.erase (n := t.edit.len - wordStart t.edit.buf t.edit.len) (by omega)).puts
        (printable_of_candidates hk hc)
      rw [hlen, Nat.sub_sub_self (wordStart_le ..), ← line_complete hok, ← foldl_append] at this
      exact ⟨start, this⟩

/-- After each key the screen shows the line being edited, with the cursor at its end and
blanks behind. -/
theorem screen_shows_line (r : Run Term.Clear Term.step h t) (hok : ∀ x ∈ h, Displays x.2) :
    t.edit.line.length = t.edit.len ∧ ∃ start, Shows t.screen start t.edit.line := by
  have hd : Displayed t := by
    refine r.inv_of_steps (C := fun _ => Displays) ?_ ?_ hok
    · rintro _ ⟨screen, hs, rfl⟩
      exact ⟨fresh_ok _, nofun, _, hs⟩
    · intro t a t' hd hc hst
      cases Term.next hst with
      | key => exact hd.press hc
      | eof => exact ⟨fresh_ok _, hd.rows, _, hc⟩
      | enter hl _ =>
        refine ⟨fresh_ok _, fun i => ?_, _, hc⟩
        rcases enter_entry t.edit i with h | ⟨-, h⟩
        · exact h ▸ hd.rows i
        · obtain ⟨_, hs⟩ := hd.shows
          exact fun c hc => hs.chars c ((enter_line _).subset (h ▸ hc))
  exact ⟨hd.ok.length_line, hd.shows⟩

end

theorem screen_shows_line_ls : ∃ h t, Run Term.Clear Term.step h t ∧ t.edit.line = "ls".toList ∧
    ∃ start, Shows t.screen start t.edit.line := by
  have hclear : Term.Clear (.start prompt) := by
    refine ⟨prompt, ⟨by simp, rfl, fun i => ?_⟩, rfl⟩
    show (if 2 + i = 1 then ' ' else if 2 + i = 0 then '$' else ' ') = ' '
    rw [if_neg (by omega), if_neg (by omega)]
  obtain ⟨t, r, ht⟩ := run_from_prompt (typing "lsx\x7f".toList) (f := fun t => t.edit.line)
    (v := "ls".toList) hclear (by decide +kernel)
  refine ⟨_, t, r, ht, (screen_shows_line r fun x hx => ?_).2⟩
  obtain ⟨c, hc, hx⟩ := mem_map.mp (mem_hist hx)
  rw [← hx]
  exact (by decide : ∀ c ∈ "lsx\x7f".toList, Printable c ∨ isErase c = true) c hc

end Xv6.Shell
