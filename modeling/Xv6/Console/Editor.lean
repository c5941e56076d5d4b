/-
# `Xv6.Console.Editor` — the cooked console is a line editor

The reference has no ring and no counters: a line being typed, the text that was
committed and not yet read, and for each process that sleeps in a read what it has
got so far.  The three counters of `cons` encode the two queues, the text between
`r` and `w` and the line between `w` and `e`.
-/
import Xv6.Console.Ring

namespace Xv6.Console

open Machine Function List

/-! ## The reference -/

/-- The text committed and not yet read, and the line being typed. -/
structure Editor where
  text : List UInt8
  typed : List UInt8

def Editor.length (x : Editor) : Nat := x.text.length + x.typed.length

def Editor.commit (x : Editor) : Editor := ⟨x.text ++ x.typed, []⟩

/-- A key is pressed. -/
def Editor.key (x : Editor) (ch : UInt8) : Editor :=
  if ch = 0 ∨ ch = ctrl 'P' then x
  else if ch = ctrl 'U' then { x with typed := [] }
  else if ch = ctrl 'H' ∨ ch = delete then { x with typed := x.typed.dropLast }
  else if x.length < INPUT_BUF_SIZE then
    let ch := if ch = carriageReturn then newline else ch
    let x := { x with typed := x.typed ++ [ch] }
    if ch = newline ∨ ch = ctrl 'D' ∨ x.length = INPUT_BUF_SIZE then x.commit else x
  else x

/-- Up to the first line feed, which is included. -/
def thruNewline (l : List UInt8) : List UInt8 :=
  l.takeWhile (· ≠ newline) ++ (l.dropWhile (· ≠ newline)).take 1

/-- What a read of `n` bytes finds in a text: `n` bytes at most, nothing behind a line
feed, nothing from a Control-D on. -/
def line (n : Nat) (text : List UInt8) : List UInt8 :=
  thruNewline ((text.takeWhile (· ≠ ctrl 'D')).take n)

/-- A read in progress, with `n` bytes to go. -/
structure Reading where
  n : Nat
  got : List UInt8

/-- A read goes on: what it returns, or how it goes to sleep, and the text that is left. -/
def Reading.goOn (x : Reading) (text : List UInt8) : (List UInt8 ⊕ Reading) × List UInt8 :=
  let l := line x.n text
  let rest := text.drop l.length
  if l.length = x.n ∨ newline ∈ l then (.inl (x.got ++ l), rest)
  else if rest = [] then (.inr ⟨x.n - l.length, x.got ++ l⟩, rest)
  -- the next character is a Control-D
  else if x.got ++ l = [] then (.inl [], rest.tail)
  else (.inl (x.got ++ l), rest)

variable {P : Type} [DecidableEq P]

/-- The reference with its readers; a read returns bytes, or -1 if it is killed. -/
structure Ref (P : Type) where
  editor : Editor
  reader : P → Option Reading
  returned : P → List (Option (List UInt8))

def Ref.init : Ref P := ⟨⟨[], []⟩, fun _ => none, fun _ => []⟩

def Ref.ret (s : Ref P) (p : P) (v : Option (List UInt8)) : Ref P :=
  { s with
    reader := update s.reader p none
    returned := update s.returned p (s.returned p ++ [v]) }

/-- The read of `p` ends, or sleeps if the process is not killed. -/
def Ref.settle (s : Ref P) (p : P) (killed : Bool) : List UInt8 ⊕ Reading → Ref P
  | .inl data => s.ret p (some data)
  | .inr y => if killed then s.ret p none else { s with reader := update s.reader p (some y) }

def Ref.readOn (s : Ref P) (p : P) (x : Reading) (killed : Bool) : Ref P :=
  let (out, text) := x.goOn s.editor.text
  Ref.settle { s with editor := { s.editor with text := text } } p killed out

def Ref.step (s : Ref P) : Act P → Option (Ref P)
  | .key ch => some { s with editor := s.editor.key ch }
  | .rawmode _ => none
  | .read p n _ killed =>
    match s.reader p with
    | none => some (s.readOn p ⟨n.toNat, []⟩ killed)
    | some _ => none
  | .wake p killed =>
    match s.reader p with
    | none => none
    | some x => some (s.readOn p x killed)

/-! ## The two queues in the ring -/

def Cons.editor (c : Cons) : Editor :=
  ⟨c.queue.take (c.w - c.r).toNat, c.queue.drop (c.w - c.r).toNat⟩

variable {c : Cons}

theorem length_text (h : Ring c) : c.editor.text.length = (c.w - c.r).toNat := by
  have := h.wr
  simp only [Cons.editor, length_take, length_queue]
  omega

theorem length_typed (h : Ring c) : c.editor.typed.length = (c.e - c.w).toNat := by
  rw [pending_le h]
  simp only [Cons.editor, length_drop, length_queue]

theorem text_append_typed (c : Cons) : c.editor.text ++ c.editor.typed = c.queue :=
  take_append_drop ..

theorem length_editor (c : Cons) : c.editor.length = (c.e - c.r).toNat := by
  rw [Editor.length, ← length_append, text_append_typed, length_queue]

/-- Two queues that together are the ring, the first as long as what can be read. -/
theorem editor_eq {x : Editor} (hq : c.queue = x.text ++ x.typed)
    (hw : (c.w - c.r).toNat = x.text.length) : c.editor = x := by
  rw [Cons.editor, hq, hw, take_left, drop_left]

theorem editor_erase (h : Ring c) {m : Nat} (hm : m ≤ (c.e - c.w).toNat) :
    (c.erase m).editor =
      { c.editor with typed := c.editor.typed.take (c.editor.typed.length - m) } := by
  have hlen : c.queue.length = c.editor.text.length + c.editor.typed.length := by
    rw [← text_append_typed, length_append]
  have htyped := length_typed h
  refine editor_eq ?_ (length_text h).symm
  rw [(ring_erase h hm).2, hlen, ← text_append_typed, take_append,
    take_of_length_le (by omega)]
  congr 2
  omega

theorem editor_store (h : Ring c) (hlt : (c.e - c.r).toNat < INPUT_BUF_SIZE) (ch : UInt8) :
    (c.store ch).editor = { c.editor with typed := c.editor.typed ++ [ch] } := by
  refine editor_eq ?_ (length_text h).symm
  rw [(ring_store h hlt ch).2, ← text_append_typed, append_assoc]

theorem editor_commit (c : Cons) : Cons.editor { c with w := c.e } = c.editor.commit := by
  refine editor_eq ?_ ?_
  · show c.queue = c.editor.text ++ c.editor.typed ++ []
    rw [text_append_typed, append_nil]
  · show (c.e - c.r).toNat = (c.editor.text ++ c.editor.typed).length
    rw [text_append_typed, length_queue]

/-- The character before `e` is the last of the queue. -/
theorem at_last (hpos : 0 < (c.e - c.r).toNat) : c.queue.getLast? = some (c.at (c.e - 1)) := by
  obtain ⟨len, hlen⟩ : ∃ len, (c.e - c.r).toNat = len + 1 := ⟨(c.e - c.r).toNat - 1, by omega⟩
  have hsub : (c.e - 1 - c.r).toNat = len := by
    have := toNat_sub_ofNat_sub (a := c.e) (r := c.r) (m := 1) (by omega)
    rw [show UInt32.ofNat 1 = 1 from rfl] at this
    omega
  rw [Cons.queue, hlen, window_succ, List.getLast?_concat, Cons.at, slot_eq (c.e - 1) c.r, hsub]

/-! ## Keystrokes -/

/-- With no line feed on the line, Control-U erases all of it. -/
theorem killLine_all : ∀ (k : Nat) {c : Cons}, Ring c → k = (c.e - c.w).toNat →
    newline ∉ c.editor.typed →
    Ring (killLine k c) ∧ (killLine k c).editor = { c.editor with typed := [] }
  | 0, c, h, hk, _ => by
    refine ⟨h, ?_⟩
    have hnil : c.editor.typed = [] := length_eq_zero_iff.mp ((length_typed h).trans hk.symm)
    show c.editor = ⟨c.editor.text, []⟩
    rw [← hnil]
  | k + 1, c, h, hk, hno => by
    have hm : 1 ≤ (c.e - c.w).toNat := by omega
    have hlast : c.editor.typed.getLast? = some (c.at (c.e - 1)) := by
      rw [← at_last (by have := pending_le h; omega), ← text_append_typed]
      refine (List.getLast?_append_of_ne_nil _ fun hnil => ?_).symm
      have := length_typed h
      rw [hnil, length_nil] at this
      omega
    have hne : c.at (c.e - 1) ≠ newline := fun he =>
      hno (he ▸ mem_of_getLast? hlast)
    rw [killLine, if_neg hne]
    have hed := editor_erase h hm
    have hring := (ring_erase h hm).1
    have hk' : k = ((c.erase 1).e - (c.erase 1).w).toNat := by
      have := length_typed hring
      rw [hed, length_take, length_typed h] at this
      omega
    have hno' : newline ∉ (c.erase 1).editor.typed := by
      rw [hed]
      exact fun hmem => hno (mem_of_mem_take hmem)
    obtain ⟨hr, he⟩ := killLine_all k hring hk' hno'
    exact ⟨hr, he.trans (by rw [hed])⟩

/-- A cooked console: the counters are in order and no line feed waits to be committed. -/
structure Cons.Cooked (c : Cons) : Prop where
  ring : Ring c
  mode : c.rawmode = 0
  line : newline ∉ c.editor.typed

theorem Cons.Cooked.commit (hr : Ring c) (hm : c.rawmode = 0) : Cons.Cooked { c with w := c.e } :=
  ⟨ring_commit hr, hm, by rw [editor_commit]; exact not_mem_nil⟩

theorem killLine_rawmode (k : Nat) (c : Cons) : (killLine k c).rawmode = c.rawmode := by
  obtain ⟨m, -, heq⟩ := killLine_eq k c
  rw [heq]
  rfl

/-- In cooked mode a keystroke edits the two queues. -/
theorem view_intr (h : c.Cooked) (ch : UInt8) :
    (consoleintr ch c).Cooked ∧ (consoleintr ch c).editor = c.editor.key ch := by
  obtain ⟨hring, hmode, hline⟩ := h
  unfold consoleintr Editor.key
  by_cases hP : ch = ctrl 'P'
  · rw [if_pos hP, if_pos (.inr hP)]
    exact ⟨⟨hring, hmode, hline⟩, rfl⟩
  rw [if_neg hP]
  by_cases hU : ch = ctrl 'U'
  · obtain ⟨hr, he⟩ := killLine_all _ hring rfl hline
    have h0 : ¬ (ch = 0 ∨ ch = ctrl 'P') := by rw [hU]; decide
    rw [if_pos hU, if_neg h0, if_pos hU]
    exact ⟨⟨hr, (killLine_rawmode ..).trans hmode, by rw [he]; exact not_mem_nil⟩, he⟩
  rw [if_neg hU, if_neg hU]
  by_cases hH : ch = ctrl 'H' ∨ ch = delete
  · have h0 : ¬ (ch = 0 ∨ ch = ctrl 'P') := by rcases hH with rfl | rfl <;> decide
    rw [if_pos hH, if_pos hmode, if_neg h0, if_pos hH]
    split
    · rename_i hne
      have hm : 1 ≤ (c.e - c.w).toNat := toNat_sub_pos (Ne.symm hne)
      have hed : (c.erase 1).editor = { c.editor with typed := c.editor.typed.dropLast } := by
        rw [editor_erase hring hm, dropLast_eq_take]
      refine ⟨⟨(ring_erase hring hm).1, hmode, ?_⟩, hed⟩
      show newline ∉ (c.erase 1).editor.typed
      rw [hed]
      exact fun hmem => hline (mem_of_mem_dropLast hmem)
    · rename_i heq
      have hnil : c.editor.typed = [] := by
        refine length_eq_zero_iff.mp ((length_typed hring).trans ?_)
        rw [not_ne_iff.mp heq, UInt32.sub_self]
        rfl
      refine ⟨⟨hring, hmode, hline⟩, ?_⟩
      rw [hnil, dropLast_nil, ← hnil]
  rw [if_neg hH, if_neg hH]
  have hsize : ∀ d : Cons, d.e - d.r = 128 ↔ d.editor.length = INPUT_BUF_SIZE := fun d => by
    rw [length_editor]
    exact UInt32.toNat_inj.symm
  by_cases hfits : ch ≠ 0 ∧ c.e - c.r < 128
  · have h0 : ¬ (ch = 0 ∨ ch = ctrl 'P') := fun h0 => h0.elim hfits.1 hP
    have hlt : (c.e - c.r).toNat < INPUT_BUF_SIZE := UInt32.lt_iff_toNat_lt.mp hfits.2
    have hlt' : c.editor.length < INPUT_BUF_SIZE := by rwa [length_editor]
    rw [if_pos hfits, if_neg h0, if_pos hlt']
    simp only
    generalize (if ch = carriageReturn then newline else ch) = ch'
    have hr := (ring_store hring hlt ch').1
    have hed := editor_store hring hlt ch'
    have hmode' : (c.store ch').rawmode = 0 := hmode
    rw [if_neg (not_not.mpr hmode'), ← hed]
    by_cases hend : ch' = newline ∨ ch' = ctrl 'D' ∨ (c.store ch').e - (c.store ch').r = 128
    · rw [if_pos hend, if_pos (by rwa [hsize] at hend)]
      exact ⟨.commit hr hmode', editor_commit _⟩
    · rw [if_neg hend, if_neg (by rwa [hsize] at hend)]
      refine ⟨⟨hr, hmode', ?_⟩, rfl⟩
      rw [hed]
      intro hmem
      rcases mem_append.mp hmem with hmem | hmem
      · exact hline hmem
      · exact hend (.inl (mem_singleton.mp hmem).symm)
  · rw [if_neg hfits]
    refine ⟨⟨hring, hmode, hline⟩, ?_⟩
    by_cases h0 : ch = 0 ∨ ch = ctrl 'P'
    · rw [if_pos h0]
    · rw [if_neg h0, if_neg]
      rw [length_editor]
      exact fun hlt => hfits ⟨fun hz => h0 (.inl hz), UInt32.lt_iff_toNat_lt.mpr hlt⟩

/-! ## Reads -/

/-- `r` moves over the first `k` characters. -/
def Cons.skip (c : Cons) (k : Nat) : Cons := { c with r := c.r + UInt32.ofNat k }

theorem line_nil (n : Nat) : line n [] = [] := by simp [line, thruNewline]

theorem line_zero (text : List UInt8) : line 0 text = [] := by simp [line, thruNewline]

theorem line_succ (n : Nat) (ch : UInt8) (text : List UInt8) :
    line (n + 1) (ch :: text) =
      if ch = ctrl 'D' then [] else if ch = newline then [ch] else ch :: line n text := by
  unfold line thruNewline
  by_cases hD : ch = ctrl 'D'
  · simp [hD]
  · by_cases hN : ch = newline
    · simp [hN, show newline ≠ ctrl 'D' by decide]
    · simp [hD, hN]

/-- The first character that can be read. -/
theorem editor_pop (h : Ring c) (hne : c.r ≠ c.w) :
    c.editor.text = c.at c.r :: (c.skip 1).editor.text ∧
      (c.skip 1).editor.typed = c.editor.typed := by
  obtain ⟨-, hq⟩ := ring_pop h hne
  have hpos := toNat_sub_pos hne
  have hw : (c.w - (c.r + 1)).toNat = (c.w - c.r).toNat - 1 := toNat_sub_add_one hpos
  obtain ⟨k, hk⟩ : ∃ k, (c.w - c.r).toNat = k + 1 := ⟨(c.w - c.r).toNat - 1, by omega⟩
  rw [hk, Nat.add_sub_cancel] at hw
  constructor
  · show c.queue.take (c.w - c.r).toNat = _ :: (c.skip 1).queue.take (c.w - (c.r + 1)).toNat
    rw [hq, hk, hw]
    rfl
  · show (c.skip 1).queue.drop (c.w - (c.r + 1)).toNat = c.queue.drop (c.w - c.r).toNat
    rw [hq, hk, hw]
    rfl

theorem text_eq_nil (h : Ring c) : c.editor.text = [] ↔ c.r = c.w := by
  rw [← length_eq_zero_iff, length_text h]
  constructor
  · intro h0
    by_contra hne
    exact absurd (toNat_sub_pos hne) (by omega)
  · intro he
    rw [he, UInt32.sub_self]
    rfl

theorem goOn_zero (got text : List UInt8) : Reading.goOn ⟨0, got⟩ text = (.inl got, text) := by
  simp [Reading.goOn, line_zero]

theorem goOn_nil (n : Nat) (got : List UInt8) :
    Reading.goOn ⟨n + 1, got⟩ [] = (.inr ⟨n + 1, got⟩, []) := by
  simp [Reading.goOn, line_nil]

/-- A read looks at one character after the other. -/
theorem goOn_cons (n : Nat) (got text : List UInt8) (ch : UInt8) :
    Reading.goOn ⟨n + 1, got⟩ (ch :: text) =
      if ch = ctrl 'D' then if got = [] then (.inl [], text) else (.inl got, ch :: text)
      else if ch = newline then (.inl (got ++ [ch]), text)
      else Reading.goOn ⟨n, got ++ [ch]⟩ text := by
  unfold Reading.goOn
  simp only [line_succ]
  by_cases hD : ch = ctrl 'D'
  · simp [hD]
  by_cases hN : ch = newline
  · simp [hN, show newline ≠ ctrl 'D' by decide]
  · simp [hD, hN, Ne.symm hN]

/-- How a stretch of `consoleread` ends, in terms of the reference. -/
def stretchEnd : Outcome × List UInt8 × Cons → List UInt8 ⊕ Reading
  | (.sleep n, got, _) => .inr ⟨n, got⟩
  | (_, got, _) => .inl got

/-- A stretch of `consoleread` into mapped memory. -/
theorem readLoop_eq {ok : Nat → Bool} {target : Nat} (hok : ∀ i < target, ok i = true) :
    ∀ (n : Nat) (got : List UInt8) {c : Cons}, Ring c → n + got.length = target →
    (stretchEnd (readLoop ok target n got c), (readLoop ok target n got c).2.2.editor) =
        ((Reading.goOn ⟨n, got⟩ c.editor.text).1,
          ⟨(Reading.goOn ⟨n, got⟩ c.editor.text).2, c.editor.typed⟩)
  | 0, got, c, h, hn => by
    rw [goOn_zero]
    rfl
  | n + 1, got, c, h, hn => by
    rw [readLoop]
    by_cases hne : c.r = c.w
    · rw [if_pos hne]
      have hnil : c.editor.text = [] := (text_eq_nil h).mpr hne
      rw [hnil, goOn_nil, ← hnil]
      rfl
    rw [if_neg hne]
    obtain ⟨htext, htyped⟩ := editor_pop h hne
    have hring : Ring (c.skip 1) := (ring_pop h hne).1
    have hskip : (c.skip 1).editor = ⟨(c.skip 1).editor.text, c.editor.typed⟩ := by
      rw [← htyped]
    rw [htext, goOn_cons]
    generalize c.at c.r = ch at htext ⊢
    by_cases hD : ch = ctrl 'D'
    · rw [if_pos hD, if_pos hD]
      by_cases hlt : n + 1 < target
      · -- the mark is put back
        have hgot : got ≠ [] := fun hg => by rw [hg, length_nil] at hn; omega
        rw [if_pos hlt, if_neg hgot, ← htext]
        have hback : ({ c with r := c.r + 1 - 1 } : Cons) = c := by
          rw [UInt32.add_sub_cancel]
        simp only [hback]
        rfl
      · have hgot : got = [] := length_eq_zero_iff.mp (by omega)
        rw [if_neg hlt, if_pos hgot]
        exact Prod.ext (congrArg Sum.inl hgot) hskip
    rw [if_neg hD, if_neg hD, if_neg (by rw [hok _ (by omega)]; decide)]
    by_cases hN : ch = newline
    · rw [if_pos hN, if_pos hN]
      exact Prod.ext rfl hskip
    · rw [if_neg hN, if_neg hN]
      have hn' : n + (got ++ [ch]).length = target := by
        rw [length_append, length_singleton]
        omega
      refine (readLoop_eq hok n (got ++ [ch]) hring hn').trans ?_
      rw [hskip]

/-! ## Whole runs -/

def Reader.reading (x : Reader) : Reading := ⟨x.n, x.got⟩

/-- What a call returns: its bytes, or -1. -/
def Ret.value (x : Ret) : Option (List UInt8) := if x.killed then none else some x.data

variable {s t s₀ : Sys P}

/-- The console as the reference sees it. -/
def Sys.ref (s : Sys P) : Ref P where
  editor := s.cons.editor
  reader p := (s.reader p).map Reader.reading
  returned p := (s.returned p).map Ret.value

/-- A console in cooked mode, with its readers reading into mapped memory. -/
structure Cooked (s : Sys P) : Prop where
  cons : s.cons.Cooked
  reader : ∀ p x, s.reader p = some x →
    x.n + x.got.length = x.target ∧ ∀ i < x.target, x.ok i = true

/-- The mode stays, and reads are into mapped memory. -/
def Act.Cooked : Act P → Prop
  | .rawmode _ => False
  | .read _ n ok _ => 0 < n ∧ ∀ i < n.toNat, ok i = true
  | .key _ | .wake .. => True

theorem ref_update_reader (f : P → Option Reader) (p : P) (x : Option Reader) :
    (fun q => (update f p x q).map Reader.reading) =
      update (fun q => (f q).map Reader.reading) p (x.map Reader.reading) := by
  funext q
  by_cases hq : q = p
  · subst hq; rw [update_self, update_self]
  · rw [update_of_ne hq, update_of_ne hq]

theorem ref_update_returned (f : P → List Ret) (p : P) (x : Ret) :
    (fun q => (update f p (f p ++ [x]) q).map Ret.value) =
      update (fun q => (f q).map Ret.value) p ((f p).map Ret.value ++ [x.value]) := by
  funext q
  by_cases hq : q = p
  · subst hq; rw [update_self, update_self, map_append]; rfl
  · rw [update_of_ne hq, update_of_ne hq]

/-- A stretch of `consoleread` is a stretch of the reference. -/
theorem view_readOn {p : P} {x : Reader} (h : Cooked s) (hn : x.n + x.got.length = x.target)
    (hok : ∀ i < x.target, x.ok i = true) (killed : Bool) :
    Cooked (readOn s p x killed) ∧ (readOn s p x killed).ref = s.ref.readOn p x.reading killed := by
  have heq := readLoop_eq hok x.n x.got h.cons.ring hn
  have hmode := (readLoop_frame x.ok x.target x.n x.got s.cons).2.2
  obtain ⟨new, hring, -, -, hout⟩ := readLoop_spec x.ok x.n x.got h.cons.ring hn
  have hsleep : ∀ q y (r : Option Reader), update s.reader p r q = some y →
      (∀ z, r = some z → z.n + z.got.length = z.target ∧ ∀ i < z.target, z.ok i = true) →
      y.n + y.got.length = y.target ∧ ∀ i < y.target, y.ok i = true := by
    intro q y r hy hr
    by_cases hq : q = p
    · subst hq
      rw [update_self] at hy
      exact hr y hy
    · rw [update_of_ne hq] at hy
      exact h.reader q y hy
  have hgo : s.ref.readOn p x.reading killed =
      Ref.settle { s.ref with editor := (readLoop x.ok x.target x.n x.got s.cons).2.2.editor } p
        killed (stretchEnd (readLoop x.ok x.target x.n x.got s.cons)) := by
    rw [(Prod.mk.inj heq).1, (Prod.mk.inj heq).2]
    rfl
  rw [hgo]
  have hline : newline ∉ (readLoop x.ok x.target x.n x.got s.cons).2.2.editor.typed := by
    rw [(Prod.mk.inj heq).2]
    exact h.cons.line
  unfold readOn
  generalize readLoop x.ok x.target x.n x.got s.cons = y at hring hout hmode hline ⊢
  obtain ⟨out, got, c⟩ := y
  have hc : c.Cooked := ⟨hring, hmode.trans h.cons.mode, hline⟩
  have hnone : ∀ z, (none : Option Reader) = some z →
      z.n + z.got.length = z.target ∧ ∀ i < z.target, z.ok i = true := fun z hz => by cases hz
  cases out with
  | sleep n =>
    simp only [stretchEnd, Ref.settle]
    by_cases hk : killed = true
    · rw [if_pos hk, if_pos hk]
      refine ⟨⟨hc, fun q y hy => hsleep q y none hy hnone⟩, ?_⟩
      simp only [Sys.ref, Ref.ret, ref_update_reader, ref_update_returned]
      rfl
    · rw [if_neg hk, if_neg hk]
      refine ⟨⟨hc, fun q y hy => hsleep q y _ hy ?_⟩, ?_⟩
      · intro z hz
        cases hz
        exact ⟨hout.2.1, hok⟩
      · simp only [Sys.ref, ref_update_reader]
        rfl
  | done eof =>
    refine ⟨⟨hc, fun q y hy => hsleep q y none hy hnone⟩, ?_⟩
    simp only [stretchEnd, Ref.settle, Sys.ref, Ref.ret, ref_update_reader, ref_update_returned]
    rfl
  | fault ch =>
    -- a copy fails only where memory is not mapped
    exact absurd ((hok _ hout.2.1).symm.trans hout.2.2) (by decide)

theorem view_step {a : Act P} (h : Cooked s) (ha : a.Cooked) (hs : step s a = some t) :
    Cooked t ∧ s.ref.step a = some t.ref := by
  cases a with
  | key ch =>
    cases hs
    obtain ⟨hc, he⟩ := view_intr h.cons ch
    refine ⟨⟨hc, h.reader⟩, ?_⟩
    simp only [Ref.step, Sys.ref, he]
  | rawmode _ => exact ha.elim
  | read p n ok killed =>
    rw [step] at hs
    split at hs
    · cases hs
    rename_i hnone
    cases hs
    obtain ⟨hc, he⟩ := view_readOn (x := ⟨n.toNat, n.toNat, [], ok⟩) h rfl ha.2 killed
    have hr : s.ref.reader p = none := by
      show (s.reader p).map Reader.reading = none
      rw [not_ne_iff.mp hnone]
      rfl
    refine ⟨hc, ?_⟩
    simp only [Ref.step, hr, he]
    rfl
  | wake p killed =>
    rw [step] at hs
    split at hs
    · cases hs
    rename_i x hx
    cases hs
    obtain ⟨hn, hok⟩ := h.reader p x hx
    obtain ⟨hc, he⟩ := view_readOn h hn hok killed
    have hr : s.ref.reader p = some x.reading := by
      show (s.reader p).map Reader.reading = _
      rw [hx]
      rfl
    refine ⟨hc, ?_⟩
    simp only [Ref.step, hr, he]

omit [DecidableEq P] in
theorem init_cooked (h : Init s) : Cooked s ∧ s.ref = Ref.init := by
  obtain ⟨hc, hr, -, -, hret⟩ := h
  refine ⟨⟨?_, fun p x hx => ?_⟩, ?_⟩
  · rw [hc]
    exact ⟨⟨by decide, by decide⟩, rfl, by decide⟩
  · rw [hr] at hx
    cases hx
  · rw [Sys.ref, hc]
    simp only [hr, hret]
    rfl

/-- As long as the console stays cooked, what has been typed, committed, read and
returned is what the line editor makes of the same keystrokes and calls. -/
theorem cooked_refines_editor {h : List (Sys P × Act P)} (h₀ : Cooked s₀)
    (r : Run (· = s₀) step h s) (hc : ∀ x ∈ h, x.2.Cooked) :
    exec Ref.step s₀.ref (h.map Prod.snd) = some s.ref :=
  (r.exec_image h₀ (fun _ _ _ hI ha hs => view_step hI ha hs) hc).2

/-- A read that sleeps while a line is typed. -/
def readAndType : List (Act Unit) :=
  [.read () 10 (fun _ => true) false, .key 'h'.toNat.toUInt8, .key 'u'.toNat.toUInt8, .key delete,
   .key 'i'.toNat.toUInt8, .key carriageReturn, .wake () false]

theorem cooked_refines_editor_line : ∃ (h : List (Sys Unit × Act Unit)) (s : Sys Unit),
    Cooked booted ∧ Run (· = booted) step h s ∧ (∀ x ∈ h, x.2.Cooked) ∧
    exec Ref.step booted.ref (h.map Prod.snd) = some s.ref ∧
    s.ref.returned () = [some ['h'.toNat.toUInt8, 'i'.toNat.toUInt8, newline]] := by
  have he : (exec step booted readAndType).map (fun s => s.ref.returned ()) =
      some [some ['h'.toNat.toUInt8, 'i'.toNat.toUInt8, newline]] := by decide +kernel
  obtain ⟨s, r, hv⟩ := @run_of_exec _ _ (· = booted) step _ _ _ rfl _ _ he
  have hacts : ∀ a ∈ readAndType, a.Cooked := by simp [readAndType, Act.Cooked]
  have hc : ∀ x ∈ hist step booted readAndType, x.2.Cooked := fun x hx => hacts _ (mem_hist hx)
  have hb : Cooked booted := (init_cooked init_booted).1
  exact ⟨_, s, hb, r, hc, cooked_refines_editor hb r hc, hv⟩

end Xv6.Console
