/-
# `Xv6.Shell.ParseSpec` — `parsecmd` accepts the grammar

Each function of the descent is compared with the nonterminal of its name.  A
position `s` in the line stands for the tokens that are still to come, `Lex s ts`;
the lemmas about `gettoken` and `peek` are the only ones that look at characters.

**Proved here.**

  * the parser finds the grammar, and reads back what is printed (`parsecmd_grammar`)
  * the strings in memory are the words of the line (`nulterminate_words`)
-/
import Xv6.Shell.Grammar

namespace Xv6.Shell

open List

/-! ## Looking at the next token -/

/-- What `gettoken` returns for a token. -/
def Tok.code : Tok → Char
  | .redir .input => '<'
  | .redir .output => '>'
  | .redir .append => '+'
  | .bar => '|'
  | .amp => '&'
  | .semi => ';'
  | .lpar => '('
  | .rpar => ')'
  | .word _ => 'a'

/-- The symbol that a token begins with. -/
def Tok.sym : Tok → Option Char
  | .redir .input => some '<'
  | .redir _ => some '>'
  | .bar => some '|'
  | .amp => some '&'
  | .semi => some ';'
  | .lpar => some '('
  | .rpar => some ')'
  | .word _ => none

theorem Tok.code_ne_nul (t : Tok) : t.code ≠ NUL := by
  cases t with
  | redir r => cases r <;> decide
  | word w => exact (by decide : 'a' ≠ NUL)
  | _ => decide

theorem Tok.word_of_code {t : Tok} (h : t.code = 'a') : ∃ w, t = .word w := by
  cases t with
  | word w => exact ⟨w, rfl⟩
  | redir r => cases r <;> exact absurd h (by decide)
  | _ => exact absurd h (by decide)

variable {s u x : Str} {α β : Type} {c : Cmd Span} {stop : List Tok} {toks : List Char} {w : Span}

section
variable {s u : Str} {t : Tok}

theorem gettoken_skip (s : Str) : gettoken (skip s) = gettoken s := by
  simp only [gettoken, skip_skip]

theorem dropWhile_word {w : Str} (hw : ∀ c ∈ w, wordChar c) (hu : ∀ c ∈ u.head?, ¬ wordChar c) :
    (w ++ u).dropWhile wordChar = u := by
  rw [dropWhile_append_of_pos hw]
  cases u with
  | nil => rfl
  | cons c u => exact dropWhile_cons_of_neg (hu c rfl)

theorem gettoken_next (h : Next (skip s) t u) : gettoken s = (t.code, ⟨skip s, u⟩, skip u) := by
  unfold gettoken
  generalize skip s = q at h
  cases h with
  | @symbol c t u hc =>
    cases t with
    | redir r => cases r <;> cases hc; rfl
    | word w => cases hc
    | _ => cases hc; rfl
  | output hu => simp [hu, Tok.code]
  | append => simp [Tok.code]
  | @word w u hw hall hu =>
    obtain ⟨c, w, rfl⟩ := exists_cons_of_ne_nil hw
    have hc := hall c mem_cons_self
    have hdrop := dropWhile_word hall hu
    simp only [wordChar, symbols, Bool.and_eq_true, decide_eq_true_eq, mem_cons,
      not_mem_nil, not_or] at hc
    simp only [cons_append] at hdrop ⊢
    rw [if_neg (by simp [hc.2]), if_neg hc.2.2.2.1, hdrop]
    rfl

theorem peek_next (htoks : toks ⊆ symbols) (h : Next (skip s) t u) :
    peek s toks = (t.sym.any (· ∈ toks), skip s) := by
  unfold peek
  generalize skip s = q at h
  cases h with
  | @symbol c t u hc =>
    cases t with
    | redir r => cases r <;> cases hc; rfl
    | word w => cases hc
    | _ => cases hc; rfl
  | output hu => rfl
  | append => rfl
  | @word w u hw hall hu =>
    obtain ⟨c, w, rfl⟩ := exists_cons_of_ne_nil hw
    have hc := hall c mem_cons_self
    have hnot : c ∉ toks := fun hm => by
      simp only [wordChar, Bool.and_eq_true, decide_eq_true_eq] at hc
      exact hc.2 (htoks hm)
    simp [Tok.sym, hnot]

theorem peek_end (toks : List Char) (h : skip s = []) : peek s toks = (false, []) := by
  simp only [peek, h, List.head?_nil, Option.any_none]

/-- `peek` finds one of `toks`. -/
theorem next_of_peek (htoks : toks ⊆ symbols) (h : (peek s toks).1 = true) :
    ∃ t u c, Next (skip s) t u ∧ t.sym = some c ∧ c ∈ toks := by
  by_cases hs : skip s = []
  · rw [peek_end toks hs] at h
    cases h
  · obtain ⟨t, u, hn⟩ := exists_next hs
    rw [peek_next htoks hn] at h
    cases hc : t.sym with
    | none => rw [hc] at h; cases h
    | some c => rw [hc] at h; exact ⟨t, u, c, hn, hc, of_decide_eq_true h⟩

theorem peek_redir (h : (peek s ['<', '>']).1 = true) : ∃ r u, Next (skip s) (.redir r) u := by
  obtain ⟨t, u, c, hn, hc, hm⟩ := next_of_peek (by decide) h
  cases t with
  | redir r => exact ⟨r, u, hn⟩
  | word w => cases hc
  | _ => cases hc; exact absurd hm (by decide)

/-- The next token begins with one of `toks`. -/
def looks (toks : List Char) (ts : List Tok) : Bool := ts.head?.any fun t => t.sym.any (· ∈ toks)

theorem peek_lex (toks : List Char) {ts : List Tok} (htoks : toks ⊆ symbols) (h : Lex s ts) :
    peek s toks = (looks toks ts, skip s) := by
  cases ts with
  | nil =>
    rw [peek_end toks (lex_nil h), lex_nil h]
    rfl
  | cons t ts =>
    obtain ⟨u, hn, -⟩ := lex_cons h
    exact peek_next htoks hn

theorem gettoken_end (h : skip s = []) : gettoken s = (NUL, ⟨[], []⟩, []) := by
  unfold gettoken
  rw [h]

/-- A word token, from the code for it. -/
theorem next_of_word (h : (gettoken s).1 = 'a') : ∃ w u, Next (skip s) (.word w) u := by
  by_cases hs : skip s = []
  · rw [gettoken_end hs] at h
    exact absurd h (by decide)
  · obtain ⟨t, u, hn⟩ := exists_next hs
    rw [gettoken_next hn] at h
    obtain ⟨w, rfl⟩ := Tok.word_of_code h
    exact ⟨w, u, hn⟩

theorem end_of_nul (h : (gettoken s).1 = NUL) : skip s = [] := by
  by_contra hs
  obtain ⟨t, u, hn⟩ := exists_next hs
  rw [gettoken_next hn] at h
  exact t.code_ne_nul h

end

/-! ## Words of the line -/

/-- The span of a word of `s`. -/
structure IsWord (s : Str) (w : Span) : Prop where
  next : Next w.q (.word w.text) w.eq
  within : w.q <:+ s

theorem IsWord.mono {s' : Str} (h : IsWord s w) (hs : s <:+ s') : IsWord s' w :=
  ⟨h.next, h.within.trans hs⟩

theorem text_eq : Span.text ⟨x ++ u, u⟩ = x := by
  simp [Span.text]

theorem isWord_next (h : Next (skip s) (.word x) u) :
    IsWord s ⟨skip s, u⟩ ∧ Span.text ⟨skip s, u⟩ = x := by
  have htext : Span.text ⟨skip s, u⟩ = x := by
    have happ : skip s = x ++ u := by
      generalize skip s = q at h
      cases h with
      | word => rfl
      | symbol hc => cases hc
    rw [happ]
    exact text_eq
  refine ⟨⟨?_, skip_suffix s⟩, htext⟩
  rwa [htext]

abbrev Cmd.text (c : Cmd Span) : Cmd Str := c.map Span.text

theorem wrap_append (c : Cmd Str) (rs rs' : List (Redirection × Str)) :
    wrap c (rs ++ rs') = wrap (wrap c rs) rs' :=
  foldl_append

/-- One argument more in the command at the bottom. -/
def Cmd.addArg (w : α) : Cmd α → Cmd α
  | .exec argv => .exec (argv ++ [w])
  | .redir cmd file r => .redir (cmd.addArg w) file r
  | cmd => cmd

def Cmd.bottom : Cmd α → List α
  | .exec argv => argv
  | .redir cmd _ _ => cmd.bottom
  | _ => []

theorem argsOf_append (argv : List α) (slots : List (Option α)) :
    Cmd.argsOf (argv.map some ++ slots) = argv ++ Cmd.argsOf slots := by
  induction argv with
  | nil => rfl
  | cons w argv ih => rw [map_cons, cons_append, Cmd.argsOf, ih, cons_append]

theorem argsOf_none (k : Nat) : Cmd.argsOf (List.replicate k (none : Option α)) = [] := by
  cases k <;> rfl

theorem argvSlots_set {argv : List α} (h : argv.length < MAXARGS) (w : Option α) :
    (Cmd.argvSlots argv).set argv.length w =
      argv.map some ++ w :: List.replicate (MAXARGS - 1 - argv.length) none := by
  obtain ⟨k, hk⟩ := Nat.exists_eq_add_of_lt h
  rw [Cmd.argvSlots, show MAXARGS - argv.length = k + 1 by omega,
    show MAXARGS - 1 - argv.length = k by omega, replicate_succ,
    set_append_right _ _ (by simp)]
  simp

/-- Writing behind the last argument adds one, or the null pointer. -/
theorem setArg_bottom (c : Cmd α) (h : c.bottom.length < MAXARGS) :
    c.setArg c.bottom.length none = c ∧
      ∀ w, c.setArg c.bottom.length (some w) = c.addArg w := by
  induction c with
  | exec argv =>
    simp only [Cmd.bottom] at h ⊢
    simp only [Cmd.setArg, argvSlots_set h, argsOf_append, Cmd.argsOf, argsOf_none, Cmd.addArg,
      append_nil, implies_true, and_self]
  | redir cmd file r ih =>
    simp only [Cmd.setArg, Cmd.addArg, Cmd.bottom, (ih h).1, (ih h).2, implies_true, and_self]
  | _ => exact ⟨rfl, fun _ => rfl⟩

theorem bottom_wrap (rs : List (Redirection × Str)) : ∀ c : Cmd Str, (wrap c rs).bottom = c.bottom := by
  induction rs with
  | nil => exact fun _ => rfl
  | cons r rs ih => exact fun c => ih (.redir c r.2 r.1)

theorem bottom_text (c : Cmd Span) : c.text.bottom = c.bottom.map Span.text := by
  induction c with
  | redir cmd file r ih => exact ih
  | _ => rfl

theorem setArg_args {ws : List Str} {rs : List (Redirection × Str)}
    (hc : c.text = wrap (.exec ws) rs) (h : ws.length < MAXARGS) :
    c.setArg ws.length none = c ∧ ∀ w, c.setArg ws.length (some w) = c.addArg w := by
  have hlen : ws.length = c.bottom.length := by
    rw [← length_map Span.text, ← bottom_text, hc, bottom_wrap, Cmd.bottom]
  rw [hlen] at h ⊢
  exact setArg_bottom c h

theorem wrap_addArg (w : Str) (rs : List (Redirection × Str)) : ∀ c : Cmd Str,
    (wrap c rs).addArg w = wrap (c.addArg w) rs := by
  induction rs with
  | nil => exact fun _ => rfl
  | cons r rs ih => exact fun c => ih (.redir c r.2 r.1)

theorem text_addArg (w : Span) (c : Cmd Span) : (c.addArg w).text = c.text.addArg w.text := by
  induction c with
  | exec argv => simp [Cmd.addArg, Cmd.map]
  | redir cmd file r ih => simp only [Cmd.addArg, Cmd.map, ih]
  | _ => rfl

theorem words_addArg {v : Span} (h : v ∈ (c.addArg w).words) : v ∈ c.words ∨ v = w := by
  induction c with
  | exec argv => simpa [Cmd.addArg, Cmd.words] using h
  | redir cmd file r ih =>
    simp only [Cmd.addArg, Cmd.words, mem_append, mem_singleton] at h ⊢
    exact h.elim (fun h => (ih h).imp_left .inl) (fun h => .inl (.inr h))
  | _ => exact .inl h

/-! ## Outcomes -/

/-- `x` does not run out of fuel, and what it returns satisfies `P`. -/
def Returns {α : Type} (P : α → Prop) : Except Err α → Prop
  | .ok a => P a
  | .error e => e ≠ .fuel

theorem Returns.bind {P : α → Prop} {Q : β → Prop} {x : Except Err α}
    {f : α → Except Err β} (h : Returns P x) (hf : ∀ a, P a → Returns Q (f a)) :
    Returns Q (x >>= f) := by
  cases x with
  | error e => exact h
  | ok a => exact hf a h

theorem Returns.mono {P Q : α → Prop} {x : Except Err α} (h : Returns P x)
    (hPQ : ∀ a, P a → Q a) : Returns Q x := by
  cases x with
  | error e => exact h
  | ok a => exact hPQ a h

/-- `x` returns the tree `t`, having read of `s` all but the tokens `rest`. -/
def Finds (s : Str) (x : Except Err (Cmd Span × Str)) (t : Cmd Str) (rest : List Tok) : Prop :=
  ∃ c s', x = .ok (c, s') ∧ c.text = t ∧ Lex s' rest ∧ s'.length ≤ s.length

section
variable {s u s' v w : Str} {t : Cmd Str} {x : Except Err (Cmd Span × Str)} {ts us rest : List Tok}

theorem Finds.bind {f : Cmd Span × Str → Except Err (Cmd Span × Str)} {t' : Cmd Str}
    {rest' : List Tok} (h : Finds u x t rest) (hf : ∀ c s', c.text = t → Lex s' rest →
      s'.length ≤ u.length → Finds s (f (c, s')) t' rest') : Finds s (x >>= f) t' rest' := by
  obtain ⟨c, s', rfl, hc, hl, hlen⟩ := h
  exact hf c s' hc hl hlen

theorem Finds.mono (h : Finds u x t rest) (hu : u.length ≤ s.length) : Finds s x t rest := by
  obtain ⟨c, s', hx, hc, hl, hlen⟩ := h
  exact ⟨c, s', hx, hc, hl, hlen.trans hu⟩

/-- The line goes on as it is. -/
theorem Finds.here (hc : c.text = t) (hl : Lex s' rest) (hlen : s'.length ≤ s.length) :
    Finds s (.ok (c, skip s')) t rest :=
  ⟨c, skip s', rfl, hc, lex_skip hl, (skip_suffix s').length_le.trans hlen⟩

/-! ## Reading tokens -/

/-- The tokens `ts` lead from `s` to `s'`. -/
structure Reads (s : Str) (ts : List Tok) (s' : Str) : Prop where
  suffix : s' <:+ s
  lex : ∀ {rest}, Lex s' rest → Lex s (ts ++ rest)

theorem Reads.refl (s : Str) : Reads s [] s := ⟨suffix_rfl, id⟩

theorem Reads.trans (h : Reads s ts u) (h' : Reads u us s') : Reads s (ts ++ us) s' :=
  ⟨h'.suffix.trans h.suffix, fun hl => by rw [append_assoc]; exact h.lex (h'.lex hl)⟩

theorem Reads.skip (h : Reads s ts s') : Reads s ts (skip s') :=
  ⟨(skip_suffix s').trans h.suffix, fun hl => h.lex (lex_of_skip hl)⟩

theorem Reads.length (h : Reads s ts s') : s'.length ≤ s.length := h.suffix.length_le

theorem reads_next {t : Tok} (h : Next (Shell.skip s) t u) :
    Reads s [t] (Shell.skip u) ∧ (Shell.skip u).length < s.length :=
  ⟨⟨(skip_suffix u).trans (h.suffix.trans (skip_suffix s)), fun hl =>
      lex_of_skip (.next h (lex_of_skip hl))⟩,
    (skip_suffix u).length_le.trans_lt (h.length_lt.trans_le (skip_suffix s).length_le)⟩

/-- A symbol of one character that is looked for and found is read. -/
theorem reads_of_peek {t : Tok} {c : Char} (ht : symbol t = some c) (hne : c ≠ '<')
    (hs : [c] ⊆ symbols) (h : (peek s [c]).1 = true) :
    Reads s [t] (gettoken s).2.2 ∧ (gettoken s).2.2.length < s.length := by
  obtain ⟨t', u, c', hn, hc, hm⟩ := next_of_peek hs h
  obtain rfl := mem_singleton.mp hm
  have htt : t' = t := by
    cases t with
    | redir r => cases r <;> cases ht; exact absurd rfl hne
    | word w => cases ht
    | _ =>
      cases ht
      cases t' with
      | redir r => cases r <;> cases hc
      | _ => first | rfl | cases hc
  rw [gettoken_next hn]
  exact reads_next (htt ▸ hn)

/-- It is found when it comes next. -/
theorem peek_of_lex {t : Tok} {c : Char} (h : Lex s (t :: ts)) (ht : t.sym = some c)
    (hs : [c] ⊆ symbols) : (peek s [c]).1 = true ∧ Lex (gettoken s).2.2 ts ∧
      (gettoken s).2.2.length < s.length := by
  obtain ⟨u, hn, hl⟩ := lex_cons h
  rw [peek_next hs hn, gettoken_next hn, ht]
  exact ⟨by simp, lex_skip hl, (reads_next hn).2⟩

theorem peek_not (toks : List Char) (htoks : toks ⊆ symbols) (h : Lex s ts)
    (hl : looks toks ts = false) : ¬ (peek s toks).1 = true := by
  rw [peek_lex toks htoks h, hl]
  exact Bool.false_ne_true

/-! ## Redirections -/

variable {n argc : Nat} {c : Cmd Span} {r : Redirection} {rs : List (Redirection × Str)}
  {ws : List Str}

theorem parseredirs_stop (h : ¬ (peek s ['<', '>']).1 = true) :
    parseredirs (n + 1) c s = .ok (c, skip s) := by
  rw [parseredirs, show peek s ['<', '>'] = (false, skip s) from
    Prod.ext (Bool.eq_false_iff.mpr h) rfl]
  rfl

theorem parseredirs_go (h : Next (skip s) (.redir r) u) : parseredirs (n + 1) c s =
    if (gettoken u).1 ≠ 'a' then .error (.panic "missing file for redirection")
    else parseredirs n (.redir c (gettoken u).2.1 r) (gettoken u).2.2 := by
  rw [parseredirs, peek_next (by decide) h]
  simp only [gettoken_skip, gettoken_next h]
  cases r <;> simp [Tok.sym, Tok.code]

theorem parseredirs_returns (h : s.length < n) : Returns (fun x =>
    (∀ w ∈ x.1.words, w ∈ c.words ∨ IsWord s w) ∧
    ∃ us rs, Redirs us rs ∧ x.1.text = wrap c.text rs ∧ Reads s us x.2) (parseredirs n c s) := by
  induction n generalizing c s with
  | zero => exact absurd h (Nat.not_lt_zero _)
  | succ n ih =>
    by_cases hp : (peek s ['<', '>']).1 = true
    · obtain ⟨r, u, hn⟩ := peek_redir hp
      rw [parseredirs_go hn]
      split
      · exact nofun
      · next hw =>
        obtain ⟨x, v, hw⟩ := next_of_word (not_not.mp hw)
        simp only [gettoken_next hw]
        obtain ⟨hru, hu⟩ := reads_next hn
        have hrw := reads_next ((skip_skip u).symm ▸ hw)
        obtain ⟨hword, htext⟩ := isWord_next hw
        refine (ih (by omega)).mono fun y ⟨hwords, us, rs, hrs, hc, hr⟩ =>
          ⟨fun w hm => ?_, _, (r, x) :: rs, .cons hrs, ?_, hru.trans (hrw.1.trans hr)⟩
        · rcases hwords w hm with hm | hm
          · rcases mem_append.mp hm with hm | hm
            · exact .inl hm
            · obtain rfl := mem_singleton.mp hm
              exact .inr ⟨hword.next, hru.suffix⟩
          · exact .inr (hm.mono (hrw.1.suffix.trans hru.suffix))
        · rw [hc, Cmd.text, Cmd.map, htext]
          rfl
    · rw [parseredirs_stop hp]
      exact ⟨fun _ => .inl, [], [], .nil, rfl, (Reads.refl s).skip⟩

/-- A redirection, as the grammar has them, is taken. -/
theorem parseredirs_complete (hrs : Redirs us rs) (hl : Lex s (us ++ ts))
    (hts : looks ['<', '>'] ts = false) (hn : s.length < n) :
    Finds s (parseredirs n c s) (wrap c.text rs) ts := by
  obtain ⟨n, rfl⟩ := Nat.exists_eq_succ_of_ne_zero (Nat.ne_zero_of_lt hn)
  induction hrs generalizing c s n with
  | nil =>
    rw [parseredirs_stop (peek_not _ (by decide) hl hts)]
    exact .here rfl hl le_rfl
  | @cons r w us rs hrs ih =>
    obtain ⟨u, hnext, hl⟩ := lex_cons hl
    obtain ⟨v, hword, hl⟩ := lex_cons hl
    have h1 := hnext.length_lt.trans_le (skip_suffix s).length_le
    have h2 := (reads_next hword).2
    obtain ⟨n, rfl⟩ : ∃ m, n = m + 1 := ⟨n - 1, by omega⟩
    rw [parseredirs_go hnext, gettoken_next hword,
      if_neg (show ¬ (Tok.word w).code ≠ 'a' from not_not_intro rfl)]
    have := ih (c := .redir c ⟨skip u, v⟩ r) (lex_skip hl) n (by omega)
    rw [Cmd.text, Cmd.map, (isWord_next hword).2] at this
    exact this.mono (by omega)

/-! ## Arguments -/

theorem parseargs_stop (h : (peek s ['|', ')', '&', ';']).1 = true) :
    parseargs (n + 1) argc c s = .ok (c.setArg argc none, skip s) := by
  rw [parseargs, show peek s ['|', ')', '&', ';'] = (true, skip s) from Prod.ext h rfl]
  rfl

theorem parseargs_go (h : ¬ (peek s ['|', ')', '&', ';']).1 = true) : parseargs (n + 1) argc c s =
      if (gettoken s).1 = NUL then .ok (c.setArg argc none, (gettoken s).2.2)
      else if (gettoken s).1 ≠ 'a' then .error (.panic "syntax")
      else if MAXARGS ≤ argc + 1 then .error (.panic "too many args")
      else parseredirs n (c.setArg argc (some (gettoken s).2.1)) (gettoken s).2.2 >>= fun y =>
        parseargs n (argc + 1) y.1 y.2 := by
  rw [parseargs, show peek s ['|', ')', '&', ';'] = (false, skip s) from
    Prod.ext (Bool.eq_false_iff.mpr h) rfl]
  simp only [Bool.false_eq_true, if_false, gettoken_skip]

theorem parseargs_end (h : skip s = []) :
    parseargs (n + 1) argc c s = .ok (c.setArg argc none, skip s) := by
  rw [parseargs_go (by rw [peek_end _ h]; exact Bool.false_ne_true), gettoken_end h, if_pos rfl, h]

theorem parseargs_returns (hc : c.text = wrap (.exec ws) rs) (hargc : ws.length < MAXARGS)
    (h : s.length < n) : Returns (fun x => (∀ w ∈ x.1.words, w ∈ c.words ∨ IsWord s w) ∧
      ∃ us ws' rs', Args us ws' rs' ∧ ws.length + ws'.length < MAXARGS ∧
        x.1.text = wrap (.exec (ws ++ ws')) (rs ++ rs') ∧ Reads s us x.2)
      (parseargs n ws.length c s) := by
  induction n generalizing c s ws rs with
  | zero => exact absurd h (Nat.not_lt_zero _)
  | succ n ih =>
    have hdone : Returns (fun x => (∀ w ∈ x.1.words, w ∈ c.words ∨ IsWord s w) ∧
        ∃ us ws' rs', Args us ws' rs' ∧ ws.length + ws'.length < MAXARGS ∧
          x.1.text = wrap (.exec (ws ++ ws')) (rs ++ rs') ∧ Reads s us x.2)
        (.ok (c.setArg ws.length none, skip s)) := by
      rw [(setArg_args hc hargc).1]
      refine ⟨fun _ => .inl, [], [], [], .nil, hargc, ?_, (Reads.refl s).skip⟩
      rw [append_nil, append_nil, hc]
    by_cases hp : (peek s ['|', ')', '&', ';']).1 = true
    · rwa [parseargs_stop hp]
    by_cases hs : skip s = []
    · rwa [parseargs_end hs]
    rw [parseargs_go hp, if_neg fun hnul => hs (end_of_nul hnul)]
    split
    · exact nofun
    · next ha =>
      obtain ⟨x, v, hn⟩ := next_of_word (not_not.mp ha)
      split
      · exact nofun
      · next hm =>
        simp only [gettoken_next hn, (setArg_args hc hargc).2]
        obtain ⟨hrv, hv⟩ := reads_next hn
        obtain ⟨hword, htext⟩ := isWord_next hn
        refine (parseredirs_returns (by omega)).bind fun y ⟨hwords1, us1, rs1, hrs1, hc1, hr1⟩ => ?_
        have hc1' : y.1.text = wrap (.exec (ws ++ [x])) (rs ++ rs1) := by
          rw [hc1, text_addArg, hc, wrap_addArg, htext, wrap_append]
          rfl
        have := hr1.length
        have hnext := ih (s := y.2) hc1' (by rw [length_append]; exact not_le.mp hm) (by omega)
        rw [length_append, length_singleton] at hnext
        refine hnext.mono
          fun z ⟨hwords, us, ws', rs', hargs, hlen, hc', hr⟩ => ⟨fun w hw => ?_, _, x :: ws', _,
            .cons hrs1 hargs, ?_, ?_, hrv.trans (hr1.trans hr)⟩
        · rcases hwords w hw with hw | hw
          · rcases hwords1 w hw with hw | hw
            · rcases words_addArg hw with hw | rfl
              · exact .inl hw
              · exact .inr hword
            · exact .inr (hw.mono hrv.suffix)
          · exact .inr (hw.mono (hr1.suffix.trans hrv.suffix))
        · rw [length_cons]
          omega
        · rw [hc', append_assoc, append_assoc]
          rfl

/-- What may come next. -/
def Ends (stop ts : List Tok) : Prop := ∀ t ∈ ts.head?, t ∈ stop

theorem looks_ends {ts : List Tok} (h : Ends stop ts)
    (hstop : ∀ t ∈ stop, t.sym.any (· ∈ toks) = false) : looks toks ts = false := by
  cases ts with
  | nil => rfl
  | cons t ts => exact hstop t (h t rfl)

theorem parseargs_complete (hargs : Args us ws rs)
    (hl : Lex s (us ++ ts)) (hts : Ends [.bar, .rpar, .amp, .semi] ts) (hn : s.length < n)
    {ws0 : List Str} {rs0 : List (Redirection × Str)} (hlen : ws0.length + ws.length < MAXARGS)
    (hc : c.text = wrap (.exec ws0) rs0) :
    Finds s (parseargs n ws0.length c s) (wrap (.exec (ws0 ++ ws)) (rs0 ++ rs)) ts := by
  have hset := setArg_args hc (by omega)
  induction hargs generalizing c s n ws0 rs0 with
  | nil =>
    obtain ⟨n, rfl⟩ := Nat.exists_eq_succ_of_ne_zero (Nat.ne_zero_of_lt hn)
    rw [append_nil, append_nil]
    have heq : parseargs (n + 1) ws0.length c s = .ok (c, skip s) := by
      nth_rewrite 2 [← hset.1]
      cases ts with
      | nil => exact parseargs_end (lex_nil hl)
      | cons t ts =>
        have ht : ∀ t ∈ [Tok.bar, .rpar, .amp, .semi],
          t.sym.any (· ∈ ['|', ')', '&', ';']) = true := by decide
        have hp := peek_lex ['|', ')', '&', ';'] (by decide) hl
        exact parseargs_stop (by rw [hp]; exact ht t (hts t rfl))
    rw [heq]
    exact .here hc hl le_rfl
  | @cons w us vs ws rs rs' hrs hargs ih =>
    obtain ⟨n, rfl⟩ := Nat.exists_eq_succ_of_ne_zero (Nat.ne_zero_of_lt hn)
    rw [length_cons] at hlen
    obtain ⟨v, hnext, hl⟩ := lex_cons hl
    have h1 := (reads_next hnext).2
    -- the redirections stop at the next word or at the end of the command
    have hlook : looks ['<', '>'] (vs ++ ts) = false := by
      cases hargs with
      | nil => exact looks_ends hts (by decide)
      | cons => rfl
    rw [parseargs_go (by rw [peek_next (by decide) hnext]; exact Bool.false_ne_true),
      gettoken_next hnext, if_neg (Tok.code_ne_nul _),
      if_neg (show ¬ (Tok.word w).code ≠ 'a' from not_not_intro rfl), if_neg (by omega), hset.2]
    refine (parseredirs_complete (s := skip v) hrs
      (by rw [← append_assoc]; exact lex_skip hl) hlook (by omega)).bind fun c1 s1 hc1 hl1 h2 => ?_
    have hc1' : c1.text = wrap (.exec (ws0 ++ [w])) (rs0 ++ rs) := by
      rw [hc1, text_addArg, hc, wrap_addArg, (isWord_next hnext).2, wrap_append]
      rfl
    have hlen' : (ws0 ++ [w]).length + ws.length < MAXARGS := by
      rw [length_append, length_singleton]
      omega
    have := ih (n := n) hl1 (by omega) hlen' hc1' (setArg_args hc1' (by omega))
    rw [append_assoc, append_assoc, length_append, length_singleton] at this
    exact this.mono (by omega)

/-! ## Background -/

theorem parsebacks_succ (n : Nat) (c : Cmd Span) (s : Str) : parsebacks (n + 1) c s =
    if (peek s ['&']).1 = true then parsebacks n (.back c) (gettoken s).2.2 else .ok (c, skip s) := by
  rw [parsebacks]
  simp only [peek, gettoken_skip]
  rfl

theorem parsebacks_returns (h : s.length < n) : Returns (fun x => x.1.words = c.words ∧
    ∃ k, x.1.text = backs k c.text ∧ Reads s (List.replicate k .amp) x.2) (parsebacks n c s) := by
  induction n generalizing c s with
  | zero => exact absurd h (Nat.not_lt_zero _)
  | succ n ih =>
    rw [parsebacks_succ]
    split
    · next hp =>
      obtain ⟨hr, hlen⟩ := reads_of_peek (t := .amp) rfl (by decide) (by decide) hp
      exact (ih (by omega)).mono fun x ⟨hwords, k, hc, hr'⟩ => ⟨hwords, k + 1, hc, hr.trans hr'⟩
    · exact ⟨rfl, 0, rfl, (Reads.refl s).skip⟩

theorem parsebacks_complete (k : Nat) (hl : Lex s (List.replicate k .amp ++ ts))
    (hts : looks ['&'] ts = false) (hn : s.length < n) :
    Finds s (parsebacks n c s) (backs k c.text) ts := by
  induction k generalizing c s n with
  | zero =>
    obtain ⟨n, rfl⟩ := Nat.exists_eq_succ_of_ne_zero (Nat.ne_zero_of_lt hn)
    rw [parsebacks_succ, if_neg (peek_not _ (by decide) hl hts)]
    exact .here rfl hl le_rfl
  | succ k ih =>
    obtain ⟨n, rfl⟩ := Nat.exists_eq_succ_of_ne_zero (Nat.ne_zero_of_lt hn)
    obtain ⟨hp, hl, hlen⟩ := peek_of_lex hl rfl (by decide)
    rw [parsebacks_succ, if_pos hp]
    exact (ih hl (by omega)).mono hlen.le

end

/-! ## The descent -/

section
variable {n : Nat} {s : Str} {t : Cmd Str} {ts rest : List Tok}

theorem parseline_succ (n : Nat) (s : Str) : parseline (n + 1) s =
    (parsepipe n s >>= fun x => parsebacks n x.1 x.2 >>= fun y =>
      if (peek y.2 [';']).1 then
        parseline n (gettoken y.2).2.2 >>= fun z => .ok (.list y.1 z.1, z.2)
      else .ok (y.1, skip y.2)) := by
  rw [parseline]
  simp only [peek, gettoken_skip]
  rfl

theorem parsepipe_succ (n : Nat) (s : Str) : parsepipe (n + 1) s = (parseexec n s >>= fun x =>
      if (peek x.2 ['|']).1 then
        parsepipe n (gettoken x.2).2.2 >>= fun y => .ok (.pipe x.1 y.1, y.2)
      else .ok (x.1, skip x.2)) := by
  rw [parsepipe]
  simp only [peek, gettoken_skip]
  rfl

theorem parseblock_succ (n : Nat) (s : Str) : parseblock (n + 1) s = if (peek s ['(']).1 then
      parseline n (gettoken s).2.2 >>= fun x =>
        if (peek x.2 [')']).1 then parseredirs n x.1 (gettoken x.2).2.2
        else .error (.panic "syntax - missing )")
    else .error (.panic "parseblock") := by
  rw [parseblock]
  simp only [peek, gettoken_skip]
  rfl

theorem parseexec_succ (n : Nat) (s : Str) : parseexec (n + 1) s =
    if (peek s ['(']).1 then parseblock n (skip s)
    else parseredirs n (.exec []) (skip s) >>= fun x => parseargs n 0 x.1 x.2 := by
  rw [parseexec]
  simp only [peek]

/-- The descent has come to `x.2` with the tree `x.1`. -/
structure Sound (G : List Tok → Cmd Str → Prop) (s : Str) (x : Cmd Span × Str) : Prop where
  words : ∀ w ∈ x.1.words, IsWord s w
  derives : ∃ ts, G ts x.1.text ∧ Reads s ts x.2

theorem parseline_returns
    (ihp : ∀ s, 4 * s.length + 3 ≤ n → Returns (Sound Pipe s) (parsepipe n s))
    (ihl : ∀ s, 4 * s.length + 4 ≤ n → Returns (Sound Line s) (parseline n s))
    (hn : 4 * s.length + 4 ≤ n + 1) : Returns (Sound Line s) (parseline (n + 1) s) := by
  rw [parseline_succ]
  refine (ihp s (by omega)).bind fun x ⟨hw1, ts1, hd1, hr1⟩ => ?_
  have h1 := hr1.length
  refine (parsebacks_returns (by omega)).bind fun y ⟨hw2, k, hc2, hr2⟩ => ?_
  have h2 := hr2.length
  rw [← hw2] at hw1
  split
  · next hp =>
    obtain ⟨hr, hlen⟩ := reads_of_peek (t := .semi) rfl (by decide) (by decide) hp
    refine (ihl _ (by omega)).bind fun z ⟨hw3, ts3, hd3, hr3⟩ => ?_
    have hu := (hr1.trans (hr2.trans hr)).suffix
    refine ⟨fun w hw => (mem_append.mp hw).elim (hw1 w) fun hw => (hw3 w hw).mono hu,
      _, ?_, hr1.trans (hr2.trans (hr.trans hr3))⟩
    show Line _ (.list y.1.text z.1.text)
    rw [hc2]
    exact .list k hd1 hd3
  · refine ⟨hw1, _, ?_, (hr1.trans hr2).skip⟩
    rw [hc2]
    exact .last k hd1

theorem parsepipe_returns
    (ihe : ∀ s, 4 * s.length + 2 ≤ n → Returns (Sound Exec s) (parseexec n s))
    (ihp : ∀ s, 4 * s.length + 3 ≤ n → Returns (Sound Pipe s) (parsepipe n s))
    (hn : 4 * s.length + 3 ≤ n + 1) : Returns (Sound Pipe s) (parsepipe (n + 1) s) := by
  rw [parsepipe_succ]
  refine (ihe s (by omega)).bind fun x ⟨hw1, ts1, hd1, hr1⟩ => ?_
  have h1 := hr1.length
  split
  · next hp =>
    obtain ⟨hr, hlen⟩ := reads_of_peek (t := .bar) rfl (by decide) (by decide) hp
    refine (ihp _ (by omega)).bind fun y ⟨hw2, ts2, hd2, hr2⟩ => ?_
    have hu := (hr1.trans hr).suffix
    exact ⟨fun w hw => (mem_append.mp hw).elim (hw1 w) fun hw => (hw2 w hw).mono hu,
      _, .pipe hd1 hd2, hr1.trans (hr.trans hr2)⟩
  · exact ⟨hw1, ts1, .last hd1, hr1.skip⟩

theorem parseblock_returns
    (ihl : ∀ s, 4 * s.length + 4 ≤ n → Returns (Sound Line s) (parseline n s))
    (hn : 4 * s.length + 1 ≤ n + 1) : Returns (Sound Exec s) (parseblock (n + 1) s) := by
  rw [parseblock_succ]
  split
  · next hopen =>
    obtain ⟨hr, hlen⟩ := reads_of_peek (t := .lpar) rfl (by decide) (by decide) hopen
    refine (ihl _ (by omega)).bind fun x ⟨hw1, ts1, hd1, hr1⟩ => ?_
    have h1 := hr1.length
    split
    · next hclose =>
      obtain ⟨hr', hlen'⟩ := reads_of_peek (t := .rpar) rfl (by decide) (by decide) hclose
      refine (parseredirs_returns (by omega)).mono fun y ⟨hw2, us, rs, hrs, hc, hr2⟩ => ?_
      have hv := (hr.trans (hr1.trans hr')).suffix
      refine ⟨fun w hw => (hw2 w hw).elim (fun hw => (hw1 w hw).mono hr.suffix) fun hw => hw.mono hv,
        _, ?_, hr.trans (hr1.trans (hr'.trans hr2))⟩
      rw [hc]
      exact .block hd1 hrs
    · exact nofun
  · exact nofun

theorem parseexec_returns
    (ihb : ∀ s, 4 * s.length + 1 ≤ n → Returns (Sound Exec s) (parseblock n s))
    (hn : 4 * s.length + 2 ≤ n + 1) : Returns (Sound Exec s) (parseexec (n + 1) s) := by
  rw [parseexec_succ]
  have hs := (Reads.refl s).skip
  have hlen := hs.length
  split
  · exact (ihb _ (by omega)).mono fun x ⟨hw, ts, hd, hr⟩ =>
      ⟨fun w hm => (hw w hm).mono hs.suffix, ts, hd, hs.trans hr⟩
  · refine (parseredirs_returns (by omega)).bind fun x ⟨hw1, us1, rs1, hrs1, hc1, hr1⟩ => ?_
    have h1 := hr1.length
    refine (parseargs_returns hc1 (by decide) (by omega)).mono
      fun y ⟨hw2, us2, ws, rs2, hargs, hlen, hc2, hr2⟩ => ⟨fun w hw => ?_, us1 ++ us2, ?_,
        hs.trans (hr1.trans hr2)⟩
    · rcases hw2 w hw with hw | hw
      · exact (hw1 w hw).elim (fun hw => absurd hw not_mem_nil) fun hw => hw.mono hs.suffix
      · exact hw.mono (hr1.suffix.trans hs.suffix)
    · rw [hc2]
      exact .simple hrs1 hargs (Nat.le_sub_one_of_lt (by simpa using hlen))

/-- With four units of fuel per character the descent comes to an end, and what it returns
has a derivation. -/
theorem parse_returns (n : Nat) :
    (∀ s, 4 * s.length + 4 ≤ n → Returns (Sound Line s) (parseline n s)) ∧
    (∀ s, 4 * s.length + 3 ≤ n → Returns (Sound Pipe s) (parsepipe n s)) ∧
    (∀ s, 4 * s.length + 1 ≤ n → Returns (Sound Exec s) (parseblock n s)) ∧
    (∀ s, 4 * s.length + 2 ≤ n → Returns (Sound Exec s) (parseexec n s)) := by
  induction n with
  | zero => refine ⟨?_, ?_, ?_, ?_⟩ <;> exact fun s hs => absurd hs (by omega)
  | succ n ih =>
    obtain ⟨ihl, ihp, ihb, ihe⟩ := ih
    exact ⟨fun _ => parseline_returns ihp ihl, fun _ => parsepipe_returns ihe ihp,
      fun _ => parseblock_returns ihl, fun _ => parseexec_returns ihb⟩

theorem Ends.mono {stop' ts : List Tok} (h : Ends stop ts) (hs : stop ⊆ stop') : Ends stop' ts :=
  fun t ht => hs (h t ht)

theorem Ends.cons {ts : List Tok} {t : Tok} (h : t ∈ stop) : Ends stop (t :: ts) := by
  rintro _ ⟨⟩
  exact h

theorem ends_amps {ts : List Tok} (h : Ends stop ts) (hamp : .amp ∈ stop) (k : Nat) :
    Ends stop (List.replicate k .amp ++ ts) := by
  cases k with
  | zero => exact h
  | succ k => exact .cons hamp

/-- With fuel `n` for an input that needs `k` more than its length, `parse` finds every
derivation of `G` that is followed by a token of `stop`. -/
def Parses (G : List Tok → Cmd Str → Prop) (stop : List Tok) (k n : Nat)
    (parse : Nat → Str → Except Err (Cmd Span × Str)) : Prop :=
  ∀ {s ts t rest}, G ts t → Lex s (ts ++ rest) → Ends stop rest → 4 * s.length + k ≤ n →
    Finds s (parse n s) t rest

theorem parseline_complete (ihp : Parses Pipe [.rpar, .amp, .semi] 3 n parsepipe)
    (ihl : Parses Line [.rpar] 4 n parseline) : Parses Line [.rpar] 4 (n + 1) parseline := by
  intro s ts t rest h hl hrest hn
  rw [parseline_succ]
  cases h with
  | @last ts c k hpipe =>
    rw [append_assoc] at hl
    refine (ihp hpipe hl (ends_amps (hrest.mono (by decide)) (by decide) k) (by omega)).bind
      fun c1 s1 hc1 hl1 h1 => ?_
    refine (parsebacks_complete k hl1 (looks_ends hrest (by decide)) (by omega)).bind
      fun c2 s2 hc2 hl2 h2 => ?_
    rw [if_neg (peek_not _ (by decide) hl2 (looks_ends hrest (by decide)))]
    exact .here (hc1 ▸ hc2) hl2 (h2.trans h1)
  | @list ts us c d k hpipe hline =>
    rw [append_assoc, append_assoc] at hl
    refine (ihp hpipe hl (ends_amps (.cons (by decide)) (by decide) k) (by omega)).bind
      fun c1 s1 hc1 hl1 h1 => ?_
    refine (parsebacks_complete k hl1 rfl (by omega)).bind fun c2 s2 hc2 hl2 h2 => ?_
    obtain ⟨hp, hl3, h3⟩ := peek_of_lex hl2 rfl (by decide)
    rw [if_pos hp]
    refine (ihl hline hl3 hrest (by omega)).bind fun c3 s3 hc3 hl3 h4 =>
      ⟨.list c2 c3, s3, rfl, ?_, hl3, by omega⟩
    rw [← hc1, ← hc2, ← hc3]
    rfl

theorem parsepipe_complete (ihe : Parses Exec [.bar, .rpar, .amp, .semi] 2 n parseexec)
    (ihp : Parses Pipe [.rpar, .amp, .semi] 3 n parsepipe) :
    Parses Pipe [.rpar, .amp, .semi] 3 (n + 1) parsepipe := by
  intro s ts t rest h hl hrest hn
  rw [parsepipe_succ]
  cases h with
  | last hexec =>
    refine (ihe hexec hl (hrest.mono (by decide)) (by omega)).bind fun c1 s1 hc1 hl1 h1 => ?_
    rw [if_neg (peek_not _ (by decide) hl1 (looks_ends hrest (by decide)))]
    exact .here hc1 hl1 h1
  | @pipe ts us c d hexec hpipe =>
    rw [append_assoc] at hl
    refine (ihe hexec hl (.cons (by decide)) (by omega)).bind fun c1 s1 hc1 hl1 h1 => ?_
    obtain ⟨hp, hl2, h2⟩ := peek_of_lex hl1 rfl (by decide)
    rw [if_pos hp]
    refine (ihp hpipe hl2 hrest (by omega)).bind fun c2 s2 hc2 hl2 h3 =>
      ⟨.pipe c1 c2, s2, rfl, ?_, hl2, by omega⟩
    rw [← hc1, ← hc2]
    rfl

theorem parseblock_complete {us : List Tok} {rs : List (Redirection × Str)}
    (ihl : Parses Line [.rpar] 4 n parseline) (h : Line ts t) (hrs : Redirs us rs)
    (hl : Lex s (.lpar :: (ts ++ .rpar :: (us ++ rest))))
    (hrest : Ends [.bar, .rpar, .amp, .semi] rest) (hn : 4 * s.length + 1 ≤ n + 1) :
    Finds s (parseblock (n + 1) s) (wrap t rs) rest := by
  obtain ⟨hopen, hl, h1⟩ := peek_of_lex hl rfl (by decide)
  rw [parseblock_succ, if_pos hopen]
  refine (ihl h hl (.cons (by decide)) (by omega)).bind fun c1 s1 hc1 hl1 h2 => ?_
  obtain ⟨hclose, hl2, h3⟩ := peek_of_lex hl1 rfl (by decide)
  rw [if_pos hclose, ← hc1]
  exact (parseredirs_complete hrs hl2 (looks_ends hrest (by decide)) (by omega)).mono (by omega)

theorem parseexec_complete
    (ihb : ∀ {s ts us t rs rest}, Line ts t → Redirs us rs →
      Lex s (.lpar :: (ts ++ .rpar :: (us ++ rest))) → Ends [.bar, .rpar, .amp, .semi] rest →
      4 * s.length + 1 ≤ n → Finds s (parseblock n s) (wrap t rs) rest) :
    Parses Exec [.bar, .rpar, .amp, .semi] 2 (n + 1) parseexec := by
  intro s ts t rest h hl hrest hn
  rw [parseexec_succ]
  have hsk := (skip_suffix s).length_le
  cases h with
  | @block ts us c rs hline hrs =>
    rw [cons_append, append_assoc, cons_append] at hl
    rw [if_pos (peek_of_lex hl rfl (by decide)).1]
    exact (ihb hline hrs (lex_skip hl) hrest (by omega)).mono hsk
  | @simple ts us ws rs rs' hrs hargs hlen =>
    rw [append_assoc] at hl
    have hfirst : looks ['<', '>'] (us ++ rest) = false := by
      cases hargs with
      | nil => exact looks_ends hrest (by decide)
      | cons => rfl
    have hopen : looks ['('] (ts ++ (us ++ rest)) = false := by
      cases hrs with
      | nil =>
        cases hargs with
        | nil => exact looks_ends hrest (by decide)
        | cons => rfl
      | @cons r => cases r <;> rfl
    have hlen' : ([] : List Str).length + ws.length < MAXARGS := by
      rw [length_nil, Nat.zero_add]
      exact Nat.lt_of_le_sub_one (by decide) hlen
    rw [if_neg (peek_not _ (by decide) hl hopen)]
    refine (parseredirs_complete hrs (lex_skip hl) hfirst (by omega)).bind
      fun c1 s1 hc1 hl1 h1 => ?_
    exact (parseargs_complete hargs hl1 hrest (by omega) hlen' hc1).mono (by omega)

/-- Every derivation is found. -/
theorem parse_complete (n : Nat) :
    Parses Line [.rpar] 4 n parseline ∧ Parses Pipe [.rpar, .amp, .semi] 3 n parsepipe ∧
    (∀ {s ts us t rs rest}, Line ts t → Redirs us rs →
      Lex s (.lpar :: (ts ++ .rpar :: (us ++ rest))) → Ends [.bar, .rpar, .amp, .semi] rest →
      4 * s.length + 1 ≤ n → Finds s (parseblock n s) (wrap t rs) rest) ∧
    Parses Exec [.bar, .rpar, .amp, .semi] 2 n parseexec := by
  induction n with
  | zero =>
    refine ⟨?_, ?_, ?_, ?_⟩
    · exact fun _ _ _ h => absurd h (by omega)
    · exact fun _ _ _ h => absurd h (by omega)
    · exact fun _ _ _ _ h => absurd h (by omega)
    · exact fun _ _ _ h => absurd h (by omega)
  | succ n ih =>
    obtain ⟨ihl, ihp, ihb, ihe⟩ := ih
    exact ⟨parseline_complete ihp ihl, parsepipe_complete ihe ihp, parseblock_complete ihl,
      parseexec_complete ihb⟩

end

/-! ## The words in memory -/

theorem nulterminate_eq (len : Nat) (c : Cmd Span) : ∀ mem, nulterminate len c mem =
    c.words.foldl (fun mem w => mem.set (len - w.eq.length) NUL) mem := by
  induction c with
  | exec argv => exact fun _ => rfl
  | redir cmd file r ih =>
    intro mem
    rw [nulterminate, ih, Cmd.words, foldl_append]
    rfl
  | pipe left right ihl ihr | list left right ihl ihr =>
    intro mem
    rw [nulterminate, ihl, ihr, Cmd.words, foldl_append]
  | back cmd ih => exact ih

/-- Memory after the writes at the ends of the words `ws`. -/
theorem getElem?_writes {len : Nat} (ws : List Span) (i : Nat) : ∀ mem : List Char,
    (ws.foldl (fun mem w => mem.set (len - w.eq.length) NUL) mem)[i]? =
      if ∃ w ∈ ws, len - w.eq.length = i then (if i < mem.length then some NUL else none)
      else mem[i]? := by
  induction ws with
  | nil => intro mem; simp
  | cons w ws ih =>
    intro mem
    rw [foldl_cons, ih, length_set]
    by_cases hws : ∃ w ∈ ws, len - w.eq.length = i
    · have hcons : ∃ v ∈ w :: ws, len - v.eq.length = i := by
        obtain ⟨v, hv, hi⟩ := hws
        exact ⟨v, mem_cons_of_mem _ hv, hi⟩
      rw [if_pos hws, if_pos hcons]
    · rw [if_neg hws, List.getElem?_set]
      by_cases hw : len - w.eq.length = i
      · have hcons : ∃ v ∈ w :: ws, len - v.eq.length = i := ⟨w, mem_cons_self, hw⟩
        rw [if_pos hw, if_pos hcons, hw]
      · rw [if_neg hw, if_neg]
        rintro ⟨v, hv, hi⟩
        rcases mem_cons.mp hv with rfl | hv
        · exact hw hi
        · exact hws ⟨v, hv, hi⟩

theorem takeWhile_nul (hx : NUL ∉ x) : ∀ {l : Str},
    (∀ j < x.length, l[j]? = x[j]?) → l[x.length]? = some NUL → l.takeWhile (· ≠ NUL) = x := by
  induction x with
  | nil =>
    intro l _ hn
    obtain ⟨l, rfl⟩ : ∃ l', l = NUL :: l' := by
      cases l with
      | nil => cases hn
      | cons c l => cases hn; exact ⟨l, rfl⟩
    rfl
  | cons c x ih =>
    intro l hl hn
    have hc := hl 0 (Nat.succ_pos _)
    cases l with
    | nil => cases hc
    | cons d l =>
      obtain rfl : d = c := Option.some.inj hc
      have hne : d ≠ NUL := fun h => hx (h ▸ mem_cons_self)
      rw [takeWhile_cons_of_pos (by simpa using hne), ih (fun h => hx
        (mem_cons_of_mem _ h)) (fun j hj => hl (j + 1) (Nat.succ_lt_succ hj)) hn]

section
variable {s : Str} {w v : Span}

/-- A word splits the line in three. -/
theorem IsWord.split (h : IsWord s w) : ∃ pre, s = pre ++ (w.text ++ w.eq) ∧
    s.length - w.q.length = pre.length ∧
    s.length - w.eq.length = pre.length + w.text.length ∧ (∀ c ∈ w.text, wordChar c) ∧
    ∀ c ∈ w.eq.head?, ¬ wordChar c := by
  obtain ⟨pre, hpre⟩ := h.within
  have hnext := h.next
  have hq : w.q = w.text ++ w.eq ∧ (∀ c ∈ w.text, wordChar c) ∧ ∀ c ∈ w.eq.head?, ¬ wordChar c := by
    generalize w.q = q at hnext
    cases hnext with
    | word _ hall hu => exact ⟨rfl, hall, hu⟩
    | symbol hc => cases hc
  refine ⟨pre, by rw [← hpre, ← hq.1], ?_, ?_, hq.2⟩
  · rw [← hpre, length_append]
    omega
  · rw [← hpre, hq.1, length_append, length_append]
    omega

/-- No word ends inside a word. -/
theorem IsWord.apart (hw : IsWord s w) (hv : IsWord s v) {j : Nat} (hj : j < w.text.length) :
    s.length - v.eq.length ≠ s.length - w.q.length + j := by
  obtain ⟨pre, hs, hq, -, hall, -⟩ := hw.split
  obtain ⟨pre', hs', -, heq, -, hend⟩ := hv.split
  intro h
  have hin : s[s.length - w.q.length + j]? = some w.text[j] := by
    rw [hq]
    conv_lhs => rw [hs]
    rw [List.getElem?_append_right (by omega), List.getElem?_append_left (by omega),
      List.getElem?_eq_getElem (by omega)]
    congr 2
    omega
  have hout : s[s.length - v.eq.length]? = v.eq.head? := by
    rw [heq]
    conv_lhs => rw [hs']
    rw [← append_assoc, List.getElem?_append_right (by rw [length_append]),
      length_append, Nat.sub_self, List.head?_eq_getElem?]
  rw [h, hin] at hout
  exact hend _ hout.symm (hall _ (getElem_mem _))

/-- After `nulterminate`, `q` points to the word. -/
theorem cstr_nulterminate (hnul : NUL ∉ s) (hc : ∀ w ∈ c.words, IsWord s w) (hw : w ∈ c.words) :
    cstr ((nulterminate s.length c (s ++ [NUL])).drop (s.length - w.q.length)) = w.text := by
  have hword := hc w hw
  obtain ⟨pre, hs, hq, heq, hall, -⟩ := hword.split
  have hx : NUL ∉ w.text := fun hm => hnul (by rw [hs]; simp [hm])
  rw [nulterminate_eq]
  refine takeWhile_nul hx (fun j hj => ?_) ?_
  · rw [List.getElem?_drop, getElem?_writes, if_neg]
    · rw [hq]
      conv_lhs => rw [hs]
      rw [append_assoc, List.getElem?_append_right (by omega), append_assoc,
        List.getElem?_append_left (by omega)]
      congr 1
      omega
    · rintro ⟨v, hv, h⟩
      exact hword.apart (hc v hv) hj h
  · rw [List.getElem?_drop, getElem?_writes, if_pos ⟨w, hw, by omega⟩, if_pos]
    rw [length_append, length_singleton]
    omega

end

theorem Cmd.map_congr {f g : α → β} {c : Cmd α} (h : ∀ w ∈ c.words, f w = g w) :
    c.map f = c.map g := by
  induction c with
  | exec argv => exact congrArg Cmd.exec (map_congr_left h)
  | redir cmd file r ih =>
    rw [Cmd.map, Cmd.map, ih fun w hw => h w (mem_append_left _ hw),
      h file (mem_append_right _ mem_cons_self)]
  | pipe left right ihl ihr | list left right ihl ihr =>
    rw [Cmd.map, Cmd.map, ihl fun w hw => h w (mem_append_left _ hw),
      ihr fun w hw => h w (mem_append_right _ hw)]
  | back cmd ih => exact congrArg Cmd.back (ih h)

/-! ## The whole line -/

theorem parsecmd_eq (s : Str) : parsecmd s = (parseline (4 * s.length + 4) s >>= fun x =>
    if skip x.2 ≠ [] then .error (.leftovers (skip x.2))
    else .ok (x.1.map fun w =>
      cstr ((nulterminate s.length x.1 (s ++ [NUL])).drop (s.length - w.q.length)))) := rfl

theorem parsecmd_words (hnul : NUL ∉ s) (h : ∀ w ∈ c.words, IsWord s w) :
    (c.map fun w => cstr ((nulterminate s.length c (s ++ [NUL])).drop (s.length - w.q.length))) =
      c.text :=
  Cmd.map_congr fun _ hw => cstr_nulterminate hnul h hw

theorem parsecmd_returns (hnul : NUL ∉ s) :
    Returns (fun t => ∃ ts, Lex s ts ∧ Line ts t) (parsecmd s) := by
  rw [parsecmd_eq]
  refine ((parse_returns _).1 s le_rfl).bind fun x ⟨hw, ts, hd, hr⟩ => ?_
  split
  · exact nofun
  · next hs =>
    have := hr.lex (lex_of_skip (not_not.mp hs ▸ Lex.nil))
    rw [append_nil] at this
    exact ⟨ts, this, parsecmd_words hnul hw ▸ hd⟩

theorem parsecmd_complete (hnul : NUL ∉ s) {ts : List Tok} {t : Cmd Str} (hlex : Lex s ts)
    (hline : Line ts t) : parsecmd s = .ok t := by
  have hret := (parse_returns _).1 s le_rfl
  have hfound : Finds s (parseline (4 * s.length + 4) s) t [] :=
    (parse_complete _).1 hline (by rwa [append_nil]) nofun le_rfl
  obtain ⟨c, s', h, rfl, hrest, -⟩ := hfound
  rw [h] at hret
  rw [parsecmd_eq, h]
  exact (if_neg (not_not_intro (lex_nil hrest))).trans (congrArg _ (parsecmd_words hnul hret.words))

/-- `parsecmd` returns on every line; it returns a tree exactly on the sentences of
the grammar, the tree of the derivation; and it reads every printed tree back. -/
theorem parsecmd_grammar : (∀ s : Str, NUL ∉ s → parsecmd s ≠ .error .fuel ∧
      ∀ t, parsecmd s = .ok t ↔ ∃ ts, Lex s ts ∧ Line ts t) ∧
    ∀ t : Cmd Str, t.Fits → parsecmd t.print = .ok t := by
  refine ⟨fun s hs => ⟨fun h => ?_,
      fun t => ⟨fun h => ?_, fun ⟨_, hl, h⟩ => parsecmd_complete hs hl h⟩⟩,
    fun t ht => ?_⟩
  · have := parsecmd_returns hs
    rw [h] at this
    exact this rfl
  · have := parsecmd_returns hs
    rwa [h] at this
  have hlex : Lex (t.print ++ []) (t.toks ++ []) := lex_print ht nofun .nil
  rw [append_nil, append_nil] at hlex
  exact parsecmd_complete (nul_not_mem_print ht) hlex (line_toks ht)

example : parsecmd "a b; (c | d >> g) < f &".toList = .ok (.list (.exec [['a'], ['b']])
      (.back (.redir (.pipe (.exec [['c']]) (.redir (.exec [['d']]) ['g'] .append)) ['f']
        .input))) := by
  decide +kernel

/-- `ls|wc` is a sentence, and so is what its tree is printed as. -/
theorem parsecmd_grammar_pipe :
    (∃ ts, Lex "ls|wc".toList ts ∧ Line ts (.pipe (.exec ["ls".toList]) (.exec ["wc".toList]))) ∧
    parsecmd (Cmd.pipe (.exec ["ls".toList]) (.exec ["wc".toList])).print =
      .ok (.pipe (.exec ["ls".toList]) (.exec ["wc".toList])) := by
  have hls : IsName "ls".toList := ⟨by decide, by simp [wordChar, whitespace, symbols, NUL]⟩
  have hwc : IsName "wc".toList := ⟨by decide, by simp [wordChar, whitespace, symbols, NUL]⟩
  refine ⟨((parsecmd_grammar.1 _ (by decide)).2 _).mp (by decide +kernel),
    parsecmd_grammar.2 _ ⟨⟨fun w hw => ?_, by decide⟩, fun w hw => ?_, by decide⟩⟩
  · rwa [mem_singleton.mp hw]
  · rwa [mem_singleton.mp hw]

/-! ## What `runcmd` finds in memory -/

/-- The arguments of the `EXEC` nodes. -/
def Cmd.argvs {α : Type} : Cmd α → List (List α)
  | .exec argv => [argv]
  | .redir cmd _ _ => cmd.argvs
  | .pipe left right => left.argvs ++ right.argvs
  | .list left right => left.argvs ++ right.argvs
  | .back cmd => cmd.argvs

theorem argvSlots_eq {argv : List α} (h : argv.length < MAXARGS) : Cmd.argvSlots argv =
    argv.map some ++ none :: List.replicate (MAXARGS - 1 - argv.length) none := by
  rw [Cmd.argvSlots, ← replicate_succ]
  congr 2
  omega

theorem argvs_wrap (c : Cmd Str) (rs : List (Redirection × Str)) : (wrap c rs).argvs = c.argvs := by
  induction rs generalizing c with
  | nil => rfl
  | cons r rs ih => exact ih _

theorem argvs_backs (k : Nat) (c : Cmd Str) : (backs k c).argvs = c.argvs := by
  induction k generalizing c with
  | zero => rfl
  | succ k ih => exact ih _

theorem argvs_map (f : α → β) (c : Cmd α) : (c.map f).argvs = c.argvs.map (List.map f) := by
  induction c with
  | exec argv => rfl
  | redir cmd file r ih => exact ih
  | pipe left right ihl ihr | list left right ihl ihr =>
    rw [Cmd.map, Cmd.argvs, ihl, ihr, Cmd.argvs, map_append]
  | back cmd ih => exact ih

mutual

theorem Line.argvs_lt {ts : List Tok} {c : Cmd Str} :
    Line ts c → ∀ argv ∈ c.argvs, argv.length < MAXARGS
  | .last k h => by rw [argvs_backs]; exact h.argvs_lt
  | .list k h h' => by
    rw [Cmd.argvs, argvs_backs]
    exact forall_mem_append.mpr ⟨h.argvs_lt, h'.argvs_lt⟩

theorem Pipe.argvs_lt {ts : List Tok} {c : Cmd Str} :
    Pipe ts c → ∀ argv ∈ c.argvs, argv.length < MAXARGS
  | .last h => h.argvs_lt
  | .pipe h h' => forall_mem_append.mpr ⟨h.argvs_lt, h'.argvs_lt⟩

theorem Exec.argvs_lt {ts : List Tok} {c : Cmd Str} :
    Exec ts c → ∀ argv ∈ c.argvs, argv.length < MAXARGS
  | .block h _ => by rw [argvs_wrap]; exact h.argvs_lt
  | .simple _ _ h => by
    rw [argvs_wrap]
    exact forall_mem_singleton.mpr (Nat.lt_of_le_pred (by decide) h)

end

/-- The descent has built the tree `c` over the line `s`, and `nulterminate` has made
strings of its pointers: the words of the tree `t`, derived from the tokens of `s`. -/
structure Terminated (s : Str) (t : Cmd Str) (c : Cmd Span) : Prop where
  parsed : ∃ es, parseline (4 * s.length + 4) s = .ok (c, es)
  tokens : ∃ ts, Lex s ts ∧ Line ts c.text
  result : t = c.text
  words : ∀ w ∈ c.words, IsWord s w ∧
    cstr ((nulterminate s.length c (s ++ [NUL])).drop (s.length - w.q.length)) = w.text
  argv : ∀ argv ∈ c.argvs, ∃ k,
    Cmd.argvSlots argv = argv.map some ++ none :: List.replicate k none ∧
    (Cmd.argvSlots argv).length = MAXARGS

theorem nulterminate_words {s : Str} (hnul : NUL ∉ s) {t : Cmd Str} (h : parsecmd s = .ok t) :
    ∃ c, Terminated s t c := by
  have hret := (parse_returns _).1 s le_rfl
  rw [parsecmd_eq] at h
  cases hp : parseline (4 * s.length + 4) s with
  | error e => rw [hp] at h; cases h
  | ok x =>
    rw [hp] at h hret
    obtain ⟨hw, ts, hd, hr⟩ := hret
    by_cases hs : skip x.2 = []
    · have hlex := hr.lex (lex_of_skip (hs ▸ Lex.nil))
      rw [append_nil] at hlex
      have ht := Except.ok.inj ((if_neg (not_not_intro hs)).symm.trans h)
      rw [parsecmd_words hnul hw] at ht
      refine ⟨x.1, ⟨x.2, hp⟩, ⟨ts, hlex, hd⟩, ht.symm,
        fun w hm => ⟨hw w hm, cstr_nulterminate hnul hw hm⟩, fun argv ha => ?_⟩
      have hlt : argv.length < MAXARGS := by
        have := hd.argvs_lt (argv.map Span.text)
          (by rw [Cmd.text, argvs_map]; exact mem_map_of_mem ha)
        rwa [length_map] at this
      refine ⟨_, argvSlots_eq hlt, ?_⟩
      rw [argvSlots_eq hlt]
      simp only [length_append, length_map, length_cons, length_replicate]
      omega
    · exact absurd ((if_pos hs).symm.trans h) nofun

/-- In `ls|wc` the terminator of `ls` takes the place of the bar. -/
theorem nulterminate_words_pipe : ∃ c, Terminated "ls|wc".toList
    (.pipe (.exec ["ls".toList]) (.exec ["wc".toList])) c :=
  nulterminate_words (by decide) (by decide +kernel)

end Xv6.Shell
