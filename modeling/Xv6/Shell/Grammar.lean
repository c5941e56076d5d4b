/-
# `Xv6.Shell.Grammar` — the language of the shell

Tokens, the grammar with the tree of each derivation, and the printer that
parenthesises everything:

    line  ::= pipe '&'* [';' line]
    pipe  ::= exec ['|' pipe]
    exec  ::= '(' line ')' redir* | redir* (word redir*)*
    redir ::= ('<' | '>' | '>>') word

Nothing here knows how `sh.c` parses, except what a character of a word is.
-/
import Mathlib.Data.List.DropRight
import Xv6.Shell.Parse

namespace Xv6.Shell

open List

inductive Tok
  | redir (r : Redirection)
  | bar
  | amp
  | semi
  | lpar
  | rpar
  | word (w : Str)
deriving DecidableEq

/-- The symbols of one character, apart from `>`. -/
def symbol : Tok → Option Char
  | .redir .input => some '<'
  | .bar => some '|'
  | .amp => some '&'
  | .semi => some ';'
  | .lpar => some '('
  | .rpar => some ')'
  | _ => none

/-- `Next s t u`: `s` begins with the token `t`, and `u` is what follows it. -/
inductive Next : Str → Tok → Str → Prop
  | symbol {c t u} : symbol t = some c → Next (c :: u) t u
  | output {u} : u.head? ≠ some '>' → Next ('>' :: u) (.redir .output) u
  | append {u} : Next ('>' :: '>' :: u) (.redir .append) u
  | word {w u} : w ≠ [] → (∀ c ∈ w, wordChar c) → (∀ c ∈ u.head?, ¬ wordChar c) →
      Next (w ++ u) (.word w) u

/-- `s` consists of the tokens `ts`. -/
inductive Lex : Str → List Tok → Prop
  | nil : Lex [] []
  | white {c s ts} : c ∈ whitespace → Lex s ts → Lex (c :: s) ts
  | next {s u t ts} : Next s t u → Lex u ts → Lex s (t :: ts)

/-- Later redirections are outermost. -/
def wrap (c : Cmd Str) (rs : List (Redirection × Str)) : Cmd Str :=
  rs.foldl (fun c r => .redir c r.2 r.1) c

def backs : Nat → Cmd Str → Cmd Str
  | 0, c => c
  | k + 1, c => backs k (.back c)

/-- `redir*` -/
inductive Redirs : List Tok → List (Redirection × Str) → Prop
  | nil : Redirs [] []
  | cons {r w ts rs} : Redirs ts rs → Redirs (.redir r :: .word w :: ts) ((r, w) :: rs)

/-- `(word redir*)*` -/
inductive Args : List Tok → List Str → List (Redirection × Str) → Prop
  | nil : Args [] [] []
  | cons {w ts us ws rs rs'} :
      Redirs ts rs → Args us ws rs' → Args (.word w :: (ts ++ us)) (w :: ws) (rs ++ rs')

mutual

inductive Line : List Tok → Cmd Str → Prop
  | last {ts c} (k : Nat) : Pipe ts c → Line (ts ++ List.replicate k .amp) (backs k c)
  | list {ts us c d} (k : Nat) : Pipe ts c → Line us d →
      Line (ts ++ (List.replicate k .amp ++ .semi :: us)) (.list (backs k c) d)

inductive Pipe : List Tok → Cmd Str → Prop
  | last {ts c} : Exec ts c → Pipe ts c
  | pipe {ts us c d} : Exec ts c → Pipe us d → Pipe (ts ++ .bar :: us) (.pipe c d)

inductive Exec : List Tok → Cmd Str → Prop
  | block {ts us c rs} : Line ts c → Redirs us rs → Exec (.lpar :: (ts ++ .rpar :: us)) (wrap c rs)
  | simple {ts us ws rs rs'} : Redirs ts rs → Args us ws rs' → ws.length ≤ MAXARGS - 1 →
      Exec (ts ++ us) (wrap (.exec ws) (rs ++ rs'))

end

/-! ## Lexing -/

section
variable {s u : Str} {t : Tok} {ts : List Tok}

theorem skip_skip (s : Str) : skip (skip s) = skip s := dropWhile_idempotent _ _

theorem skip_cons {c : Char} (h : c ∈ whitespace) (s : Str) : skip (c :: s) = skip s := by
  simp [skip, h]

theorem skip_cons_of_not {c : Char} (h : c ∉ whitespace) (s : Str) : skip (c :: s) = c :: s := by
  simp [skip, h]

theorem skip_suffix (s : Str) : skip s <:+ s := dropWhile_suffix _

theorem not_white_of_symbol {c : Char} (h : symbol t = some c) : c ∉ whitespace := by
  cases t with
  | redir r => cases r <;> cases h; decide
  | word w => cases h
  | _ => cases h; decide

theorem Next.skip (h : Next s t u) : skip s = s := by
  cases h with
  | symbol hc => exact skip_cons_of_not (not_white_of_symbol hc) _
  | output _ | append => exact skip_cons_of_not (by decide) _
  | @word w u hw hall _ =>
    obtain ⟨c, w, rfl⟩ := exists_cons_of_ne_nil hw
    have hc := hall c mem_cons_self
    simp only [wordChar, Bool.and_eq_true, decide_eq_true_eq] at hc
    exact skip_cons_of_not hc.1 _

theorem Next.length_lt (h : Next s t u) : u.length < s.length := by
  cases h with
  | symbol _ => simp
  | output _ => simp
  | append => simp only [length_cons]; omega
  | @word w u hw _ _ =>
    have := length_pos_iff.mpr hw
    rw [length_append]
    omega

theorem Next.suffix (h : Next s t u) : u <:+ s := by
  cases h with
  | symbol _ | output _ => exact suffix_cons _ _
  | append => exact ⟨['>', '>'], rfl⟩
  | word => exact suffix_append _ _

theorem lex_of_skip (h : Lex (skip s) ts) : Lex s ts := by
  induction s with
  | nil => exact h
  | cons c s ih =>
    by_cases hc : c ∈ whitespace
    · rw [skip_cons hc] at h
      exact .white hc (ih h)
    · rwa [skip_cons_of_not hc] at h

theorem lex_skip (h : Lex s ts) : Lex (skip s) ts := by
  induction h with
  | nil => exact .nil
  | white hc _ ih => rwa [skip_cons hc]
  | next hn hl => rw [hn.skip]; exact .next hn hl

theorem lex_nil (h : Lex s []) : skip s = [] := by
  generalize hts : ([] : List Tok) = ts at h
  induction h with
  | nil => rfl
  | white hc _ ih => rw [skip_cons hc]; exact ih hts
  | next => cases hts

theorem lex_cons (h : Lex s (t :: ts)) : ∃ u, Next (skip s) t u ∧ Lex u ts := by
  generalize hts : t :: ts = ts' at h
  induction h with
  | nil => cases hts
  | white hc _ ih => rw [skip_cons hc]; exact ih hts
  | @next s u _ _ hn hl =>
    cases hts
    rw [hn.skip]
    exact ⟨u, hn, hl⟩

/-- What is not blank begins with a token. -/
theorem exists_next (hs : skip s ≠ []) : ∃ t u, Next (skip s) t u := by
  obtain ⟨c, r, hr⟩ := exists_cons_of_ne_nil hs
  have hc : c ∉ whitespace := by
    have := List.head?_dropWhile_not (· ∈ whitespace) s
    rw [show s.dropWhile (· ∈ whitespace) = c :: r from hr] at this
    simpa using this
  rw [hr]
  by_cases hw : wordChar c = true
  · refine ⟨.word ((c :: r).takeWhile wordChar), (c :: r).dropWhile wordChar, ?_⟩
    have happ : (c :: r).takeWhile wordChar ++ (c :: r).dropWhile wordChar = c :: r :=
      takeWhile_append_dropWhile
    have := Next.word (w := (c :: r).takeWhile wordChar) (u := (c :: r).dropWhile wordChar)
      (by simp [hw]) (fun d hd => mem_takeWhile_imp hd) ?_
    · rwa [happ] at this
    · intro d hd
      have hnot := List.head?_dropWhile_not wordChar (c :: r)
      rw [Option.mem_def.mp hd] at hnot
      simpa using hnot
  · have hsym : c ∈ symbols := by
      simpa [wordChar, hc] using hw
    simp only [symbols, mem_cons, not_mem_nil, or_false] at hsym
    rcases hsym with rfl | rfl | rfl | rfl | rfl | rfl | rfl
    · exact ⟨_, _, .symbol (t := .redir .input) rfl⟩
    · exact ⟨_, _, .symbol (t := .bar) rfl⟩
    · by_cases hh : r.head? = some '>'
      · obtain ⟨r', rfl⟩ := List.head?_eq_some_iff.mp hh
        exact ⟨_, _, .append⟩
      · exact ⟨_, _, .output hh⟩
    · exact ⟨_, _, .symbol (t := .amp) rfl⟩
    · exact ⟨_, _, .symbol (t := .semi) rfl⟩
    · exact ⟨_, _, .symbol (t := .lpar) rfl⟩
    · exact ⟨_, _, .symbol (t := .rpar) rfl⟩

end

/-! ## Printing -/

/-- A word that `gettoken` reads back. -/
def IsName (w : Str) : Prop := w ≠ [] ∧ ∀ c ∈ w, wordChar c = true ∧ c ≠ NUL

/-- A tree with printable words and not too many of them. -/
def Cmd.Fits : Cmd Str → Prop
  | .exec argv => (∀ w ∈ argv, IsName w) ∧ argv.length ≤ MAXARGS - 1
  | .redir cmd file _ => cmd.Fits ∧ IsName file
  | .pipe left right => left.Fits ∧ right.Fits
  | .list left right => left.Fits ∧ right.Fits
  | .back cmd => cmd.Fits

def Redirection.print : Redirection → Str
  | .input => ['<']
  | .output => ['>']
  | .append => ['>', '>']

def Cmd.print : Cmd Str → Str
  | .exec argv => argv.flatMap (' ' :: ·)
  | .redir cmd file r => '(' :: (cmd.print ++ ')' :: (r.print ++ file))
  | .pipe left right => '(' :: (left.print ++ ')' :: '|' :: '(' :: (right.print ++ [')']))
  | .list left right => '(' :: (left.print ++ ')' :: ';' :: '(' :: (right.print ++ [')']))
  | .back cmd => '(' :: (cmd.print ++ [')', '&'])

/-- The tokens of that text. -/
def Cmd.toks : Cmd Str → List Tok
  | .exec argv => argv.map .word
  | .redir cmd file r => .lpar :: (cmd.toks ++ .rpar :: [.redir r, .word file])
  | .pipe left right => .lpar :: (left.toks ++ .rpar :: .bar :: .lpar :: (right.toks ++ [.rpar]))
  | .list left right => .lpar :: (left.toks ++ .rpar :: .semi :: .lpar :: (right.toks ++ [.rpar]))
  | .back cmd => .lpar :: (cmd.toks ++ [.rpar, .amp])

variable {ts : List Tok} {c : Cmd Str}

theorem lex_word {w u : Str} (hw : IsName w) (hu : ∀ c ∈ u.head?, ¬ wordChar c) (h : Lex u ts) :
    Lex (w ++ u) (.word w :: ts) :=
  .next (.word hw.1 (fun c hc => (hw.2 c hc).1) hu) h

theorem lex_symbol {c : Char} {u : Str} {t : Tok} (hc : symbol t = some c) (h : Lex u ts) :
    Lex (c :: u) (t :: ts) :=
  .next (.symbol hc) h

theorem lex_argv {argv : List Str} {u : Str} (hw : ∀ w ∈ argv, IsName w)
    (hu : ∀ c ∈ u.head?, ¬ wordChar c) (h : Lex u ts) :
    Lex (argv.flatMap (' ' :: ·) ++ u) (argv.map .word ++ ts) := by
  induction argv with
  | nil => exact h
  | cons w argv ih =>
    have hrest := ih fun w hm => hw w (mem_cons_of_mem _ hm)
    rw [flatMap_cons, append_assoc, cons_append]
    refine .white (by decide) (lex_word (hw w mem_cons_self) ?_ hrest)
    cases argv with
    | nil => exact hu
    | cons v argv =>
      rintro c ⟨⟩
      decide

theorem lex_file {r : Redirection} {file u : Str} (hf : IsName file)
    (hu : ∀ c ∈ u.head?, ¬ wordChar c) (h : Lex u ts) :
    Lex (r.print ++ (file ++ u)) (.redir r :: .word file :: ts) := by
  have hw := lex_word hf hu h
  cases r with
  | input => exact .next (.symbol rfl) hw
  | append => exact .next .append hw
  | output =>
    refine .next (.output fun hh => ?_) hw
    obtain ⟨c, w, rfl⟩ := exists_cons_of_ne_nil hf.1
    cases hh
    exact absurd (hf.2 _ mem_cons_self).1 (by decide)

/-- The printed text is read as its tokens, if no word runs into what follows. -/
theorem lex_print (hc : c.Fits) : ∀ {u : Str} {ts : List Tok},
    (∀ c ∈ u.head?, ¬ wordChar c) → Lex u ts → Lex (c.print ++ u) (c.toks ++ ts) := by
  have closes : ∀ (u : Str), ∀ c ∈ (')' :: u).head?, ¬ wordChar c := by
    rintro u c ⟨⟩
    decide
  induction c with
  | exec argv =>
    intro u ts hu h
    exact lex_argv hc.1 hu h
  | redir cmd file r ih =>
    intro u ts hu h
    simp only [Cmd.print, Cmd.toks, cons_append, append_assoc, nil_append]
    exact lex_symbol rfl (ih hc.1 (closes _) (lex_symbol rfl (lex_file hc.2 hu h)))
  | pipe left right ihl ihr | list left right ihl ihr =>
    intro u ts hu h
    simp only [Cmd.print, Cmd.toks, cons_append, append_assoc, nil_append]
    exact lex_symbol rfl (ihl hc.1 (closes _) (lex_symbol rfl (lex_symbol rfl (lex_symbol rfl
      (ihr hc.2 (closes _) (lex_symbol rfl h))))))
  | back cmd ih =>
    intro u ts hu h
    simp only [Cmd.print, Cmd.toks, cons_append, append_assoc, nil_append]
    exact lex_symbol rfl (ih hc (closes _) (lex_symbol rfl (lex_symbol rfl h)))

theorem args_words (argv : List Str) : Args (argv.map .word) argv [] := by
  induction argv with
  | nil => exact .nil
  | cons w argv ih => exact .cons .nil ih

/-- A block derives whatever its line derives. -/
theorem pipe_block (h : Line ts c) : Pipe (.lpar :: (ts ++ [.rpar])) c := .last (.block h .nil)

theorem line_pipe (h : Pipe ts c) : Line ts c := by
  have := Line.last 0 h
  rwa [replicate_zero, append_nil] at this

theorem line_toks (hc : c.Fits) : Line c.toks c := by
  induction c with
  | exec argv => exact line_pipe (.last (.simple .nil (args_words argv) hc.2))
  | redir cmd file r ih => exact line_pipe (.last (.block (ih hc.1) (.cons .nil)))
  | pipe left right ihl ihr =>
    have := Pipe.pipe (.block (ihl hc.1) .nil) (pipe_block (ihr hc.2))
    rw [cons_append, append_assoc] at this
    exact line_pipe this
  | list left right ihl ihr =>
    have := Line.list 0 (pipe_block (ihl hc.1)) (line_pipe (pipe_block (ihr hc.2)))
    rwa [cons_append, append_assoc] at this
  | back cmd ih =>
    have := Line.last 1 (pipe_block (ih hc))
    rwa [cons_append, append_assoc] at this

theorem nul_not_mem_print (hc : c.Fits) : NUL ∉ c.print := by
  have hname : ∀ w : Str, IsName w → NUL ∉ w := fun w hw hm => (hw.2 _ hm).2 rfl
  induction c with
  | exec argv =>
    intro hm
    obtain ⟨w, hw, hm⟩ := mem_flatMap.mp hm
    exact (mem_cons.mp hm).elim (by decide) (hname w (hc.1 w hw))
  | redir cmd file r ih =>
    have hr : NUL ∉ r.print := by cases r <;> decide
    simp [Cmd.print, NUL, ih hc.1, hname file hc.2, hr]
  | pipe left right ihl ihr | list left right ihl ihr => simp [Cmd.print, NUL, ihl hc.1, ihr hc.2]
  | back cmd ih => simp [Cmd.print, NUL, ih hc]

end Xv6.Shell
