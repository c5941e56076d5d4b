/-
# `Xv6.Console.Ring` — the console ring keeps what it has accepted

The counters stay in order and at most a ring apart, the ring holds exactly the
characters accepted and not yet read, and the readers get them in order.  One
keystroke breaks this: Backspace or Delete in raw mode stores its character without
looking whether the ring is full.

**Proved here.**

  * this holds along every run whose keystrokes find room (`console_fifo`)
  * without that condition the ring overruns (`ring_overrun`)
-/
import Xv6.Console.Machine

namespace Xv6.Console

open Machine Function List

/-! ## Counters that wrap -/

theorem toNat_add_one_sub {a r : UInt32} (h : (a - r).toNat < 128) :
    (a + 1 - r).toNat = (a - r).toNat + 1 := by
  rw [UInt32.toNat_sub] at h ⊢
  rw [UInt32.toNat_sub, UInt32.toNat_add]
  simp only [UInt32.toNat_one] at *
  omega

variable {m : Nat} {ch : UInt8}

theorem toNat_sub_ofNat_sub {a r : UInt32} (h : m ≤ (a - r).toNat) :
    (a - UInt32.ofNat m - r).toNat = (a - r).toNat - m := by
  have hm : (UInt32.ofNat m).toNat = m := UInt32.toNat_ofNat_of_lt (h.trans_lt (a - r).toNat_lt)
  rw [UInt32.toNat_sub] at h ⊢
  rw [UInt32.toNat_sub, UInt32.toNat_sub, hm]
  omega

theorem toNat_sub_add_one {a r : UInt32} (h : 0 < (a - r).toNat) :
    (a - (r + 1)).toNat = (a - r).toNat - 1 := by
  rw [UInt32.toNat_sub] at h ⊢
  rw [UInt32.toNat_sub, UInt32.toNat_add]
  have := r.toNat_lt
  simp only [UInt32.toNat_one] at *
  omega

theorem toNat_sub_pos {a r : UInt32} (h : r ≠ a) : 0 < (a - r).toNat := by
  rw [UInt32.toNat_sub]
  have hne : r.toNat ≠ a.toNat := fun he => h (UInt32.toNat_inj.mp he)
  have := a.toNat_lt
  have := r.toNat_lt
  omega

theorem toNat_eq_add (a r : UInt32) : a.toNat = (r.toNat + (a - r).toNat) % 2 ^ 32 := by
  rw [UInt32.toNat_sub]
  have := a.toNat_lt
  have := r.toNat_lt
  omega

/-- The slot of a counter, seen from another one. -/
theorem slot_eq (a r : UInt32) :
    slot INPUT_BUF_SIZE a.toNat = slot INPUT_BUF_SIZE (r.toNat + (a - r).toNat) := by
  rw [toNat_eq_add a r]
  exact slot_mod ⟨2 ^ 25, by decide⟩ _

/-! ## The ring -/

/-- `r ≤ w ≤ e ≤ r + INPUT_BUF_SIZE`, for counters that wrap. -/
structure Ring (c : Cons) : Prop where
  wr : (c.w - c.r).toNat ≤ (c.e - c.r).toNat
  er : (c.e - c.r).toNat ≤ INPUT_BUF_SIZE

/-- What the ring holds, from `cons.r` to `cons.e`. -/
def Cons.queue (c : Cons) : List UInt8 := window c.buf c.r.toNat (c.e - c.r).toNat

theorem length_queue (c : Cons) : c.queue.length = (c.e - c.r).toNat := length_window ..

variable {c : Cons}

theorem ring_store (h : Ring c) (hroom : (c.e - c.r).toNat < INPUT_BUF_SIZE) (ch : UInt8) :
    Ring (c.store ch) ∧ (c.store ch).queue = c.queue ++ [ch] := by
  have he : ((c.store ch).e - (c.store ch).r).toNat = (c.e - c.r).toNat + 1 :=
    toNat_add_one_sub hroom
  refine ⟨⟨?_, ?_⟩, ?_⟩
  · rw [he]; exact h.wr.trans (Nat.le_succ _)
  · rwa [he]
  · unfold Cons.queue
    rw [he, window_succ]
    show window (update c.buf (slot INPUT_BUF_SIZE c.e.toNat) ch) c.r.toNat _ ++
      [update c.buf (slot INPUT_BUF_SIZE c.e.toNat) ch (slot INPUT_BUF_SIZE
        (c.r.toNat + (c.e - c.r).toNat))] = _
    rw [slot_eq c.e c.r, window_update _ hroom, update_self]

/-- Everything stored becomes readable. -/
theorem ring_commit (h : Ring c) : Ring { c with w := c.e } := ⟨le_rfl, h.er⟩

/-- The last `m` of the characters that are not readable yet are erased. -/
def Cons.erase (c : Cons) (m : Nat) : Cons := { c with e := c.e - UInt32.ofNat m }

theorem pending_le (h : Ring c) : (c.e - c.w).toNat = (c.e - c.r).toNat - (c.w - c.r).toNat := by
  have := h.wr
  rw [UInt32.toNat_sub, UInt32.toNat_sub] at this
  rw [UInt32.toNat_sub, UInt32.toNat_sub, UInt32.toNat_sub]
  have := c.w.toNat_lt
  omega

theorem ring_erase (h : Ring c) (hm : m ≤ (c.e - c.w).toNat) :
    Ring (c.erase m) ∧ (c.erase m).queue = c.queue.take (c.queue.length - m) := by
  have hpend := pending_le h
  have he : ((c.erase m).e - (c.erase m).r).toNat = (c.e - c.r).toNat - m :=
    toNat_sub_ofNat_sub (r := c.r) (by omega)
  refine ⟨⟨?_, ?_⟩, ?_⟩
  · show (c.w - c.r).toNat ≤ ((c.erase m).e - (c.erase m).r).toNat
    have := h.wr
    omega
  · rw [he]; exact (Nat.sub_le _ _).trans h.er
  · rw [length_queue]
    unfold Cons.queue
    rw [he, window_take _ _ (Nat.sub_le _ _)]
    rfl

theorem killLine_eq : ∀ (k : Nat) (c : Cons), ∃ m ≤ k, killLine k c = c.erase m
  | 0, c => ⟨0, le_rfl, by simp [killLine, Cons.erase]⟩
  | k + 1, c => by
    rw [killLine]
    split
    · exact ⟨0, Nat.zero_le _, by simp [Cons.erase]⟩
    · obtain ⟨m, hm, heq⟩ := killLine_eq k { c with e := c.e - 1 }
      refine ⟨m + 1, by omega, ?_⟩
      rw [heq]
      show ({ c with e := c.e - 1 - UInt32.ofNat m } : Cons) = _
      have : c.e - 1 - UInt32.ofNat m = c.e - UInt32.ofNat (m + 1) := by
        apply UInt32.toNat_inj.mp
        simp only [UInt32.toNat_sub, UInt32.toNat_ofNat', UInt32.toNat_one]
        omega
      rw [this]
      rfl

/-! ## Interrupts -/

/-- A keystroke finds room: it is not an editing key in raw mode on a full ring. -/
def Room (c : Cons) (ch : UInt8) : Prop :=
  ¬ (c.rawmode ≠ 0 ∧ (ch = ctrl 'H' ∨ ch = delete) ∧ c.e - c.r = 128)

instance (c : Cons) (ch : UInt8) : Decidable (Room c ch) := inferInstanceAs (Decidable (¬ _))

/-- What an interrupt does: nothing, erase, or store with or without a commit. -/
theorem consoleintr_cases (ch : UInt8) (h : Ring c) (hroom : Room c ch) :
    (∃ m ≤ (c.e - c.w).toNat, consoleintr ch c = c.erase m) ∨
    (c.e - c.r).toNat < INPUT_BUF_SIZE ∧
      (consoleintr ch c = c.store (if ch = carriageReturn then newline else ch) ∨
        consoleintr ch c = { c.store (if ch = carriageReturn then newline else ch) with
          w := c.e + 1 }) := by
  have hnone : ∃ m ≤ (c.e - c.w).toNat, c = c.erase m := ⟨0, Nat.zero_le _, by simp [Cons.erase]⟩
  have hfull : c.e - c.r ≠ 128 → (c.e - c.r).toNat < INPUT_BUF_SIZE := by
    intro hne
    refine lt_of_le_of_ne h.er fun heq => hne ?_
    exact UInt32.toNat_inj.mp heq
  unfold consoleintr
  split
  · exact .inl hnone
  split
  · obtain ⟨m, hm, heq⟩ := killLine_eq (c.e - c.w).toNat c
    exact .inl ⟨m, hm, heq⟩
  split
  · rename_i hch
    have hcr : ch ≠ carriageReturn := by
      rcases hch with rfl | rfl <;> decide
    split
    · split
      · rename_i hne
        exact .inl ⟨1, toNat_sub_pos (Ne.symm hne), rfl⟩
      · exact .inl hnone
    · rename_i hraw
      refine .inr ⟨hfull fun heq => hroom ⟨hraw, hch, heq⟩, .inr ?_⟩
      rfl
  split
  · rename_i hlt
    have hlt : (c.e - c.r).toNat < INPUT_BUF_SIZE := UInt32.lt_iff_toNat_lt.mp hlt.2
    refine .inr ⟨hlt, ?_⟩
    simp only
    generalize (if ch = carriageReturn then newline else ch) = ch'
    split
    · exact .inr rfl
    · split
      · exact .inr rfl
      · exact .inl rfl
  · exact .inl hnone

theorem erase_e (hm : m ≤ INPUT_BUF_SIZE) :
    (c.erase m).e ≠ c.e + 1 ∧ (c.e - (c.erase m).e).toNat = m := by
  have hm : m ≤ 128 := hm
  refine ⟨fun h => ?_, ?_⟩
  · have h := congrArg UInt32.toNat h
    simp only [Cons.erase, UInt32.toNat_sub, UInt32.toNat_ofNat', UInt32.toNat_add,
      UInt32.toNat_one] at h
    omega
  · simp only [Cons.erase, UInt32.toNat_sub, UInt32.toNat_ofNat']
    omega

theorem remember_stored (l : List UInt8) (h : (consoleintr ch c).e = c.e + 1) :
    remember ch c l = l ++ [if ch = carriageReturn then newline else ch] :=
  if_pos h

theorem remember_erased (l : List UInt8) (h : (consoleintr ch c).e ≠ c.e + 1) :
    remember ch c l = l.take (l.length - (c.e - (consoleintr ch c).e).toNat) :=
  if_neg h

/-- An interrupt works at the end of what was accepted. -/
theorem ring_intr (h : Ring c) (hroom : Room c ch) (l : List UInt8) : Ring (consoleintr ch c) ∧
      remember ch c (l ++ c.queue) = l ++ (consoleintr ch c).queue := by
  rcases consoleintr_cases ch h hroom with ⟨m, hm, heq⟩ | ⟨hlt, heq⟩
  · obtain ⟨hr, hq⟩ := ring_erase h hm
    have hle : m ≤ (c.e - c.r).toNat := hm.trans (by rw [pending_le h]; exact Nat.sub_le _ _)
    obtain ⟨hne, hsub⟩ := erase_e (hle.trans h.er)
    rw [remember_erased _ (heq ▸ hne), heq]
    refine ⟨hr, ?_⟩
    have hlen := length_queue c
    rw [hsub, hq, take_append, length_append, take_of_length_le (by omega)]
    congr 2
    omega
  · obtain ⟨hr, hq⟩ := ring_store h hlt (if ch = carriageReturn then newline else ch)
    have he : (consoleintr ch c).e = c.e + 1 := by rcases heq with heq | heq <;> rw [heq] <;> rfl
    rw [remember_stored _ he, append_assoc, ← hq]
    rcases heq with heq | heq
    · rw [heq]
      exact ⟨hr, rfl⟩
    · rw [heq]
      exact ⟨ring_commit hr, rfl⟩

/-! ## Reading -/

/-- The first character of a ring with something to read. -/
theorem ring_pop (h : Ring c) (hne : c.r ≠ c.w) :
    Ring { c with r := c.r + 1 } ∧ c.queue = c.at c.r :: Cons.queue { c with r := c.r + 1 } := by
  have hpos := toNat_sub_pos hne
  have hw : (c.w - (c.r + 1)).toNat = (c.w - c.r).toNat - 1 := toNat_sub_add_one hpos
  have he : (c.e - (c.r + 1)).toNat = (c.e - c.r).toNat - 1 :=
    toNat_sub_add_one (lt_of_lt_of_le hpos h.wr)
  have hwr := h.wr
  have her := h.er
  refine ⟨⟨?_, ?_⟩, ?_⟩
  · show (c.w - (c.r + 1)).toNat ≤ (c.e - (c.r + 1)).toNat
    omega
  · show (c.e - (c.r + 1)).toNat ≤ INPUT_BUF_SIZE
    omega
  · unfold Cons.queue
    simp only [he]
    obtain ⟨len, hlen⟩ : ∃ len, (c.e - c.r).toNat = len + 1 := ⟨(c.e - c.r).toNat - 1, by omega⟩
    rw [hlen, window_cons, Nat.add_sub_cancel, UInt32.toNat_add, window_mod ⟨2 ^ 25, by decide⟩]
    rfl

/-- How a stretch of `consoleread` has used the ring; `new` is what it copied out. -/
structure Stretch (ok : Nat → Bool) (target : Nat) (got : List UInt8) (c : Cons) (out : Outcome)
    (got' : List UInt8) (c' : Cons) (new : List UInt8) : Prop where
  ring : Ring c'
  got : got' = got ++ new
  mark : ctrl 'D' ∉ new
  out : match out with
    | .sleep n => c.queue = new ++ c'.queue ∧ n + got'.length = target ∧ 0 < n
    | .done eof => c.queue = new ++ (if eof then [ctrl 'D'] else []) ++ c'.queue ∧
        got'.length ≤ target ∧ (eof = true → got' = []) ∧ (eof = false → 0 < target → got' ≠ [])
    | .fault ch => c.queue = new ++ [ch] ++ c'.queue ∧ got'.length < target ∧ ok got'.length = false

theorem readLoop_spec (ok : Nat → Bool) {target : Nat} : ∀ (n : Nat) (got : List UInt8) {c : Cons},
    Ring c → n + got.length = target →
    ∃ new, Stretch ok target got c (readLoop ok target n got c).1 (readLoop ok target n got c).2.1
      (readLoop ok target n got c).2.2 new
  | 0, got, c, h, hn => by
    refine ⟨[], h, (append_nil _).symm, not_mem_nil, rfl,
      (show got.length ≤ target by omega), nofun, fun _ ht hg => ?_⟩
    rw [show got = [] from hg] at hn
    simp only [length_nil] at hn
    omega
  | n + 1, got, c, h, hn => by
    rw [readLoop]
    split
    · exact ⟨[], h, (append_nil _).symm, not_mem_nil, rfl, hn, by omega⟩
    rename_i hne
    obtain ⟨hr, hq⟩ := ring_pop h hne
    simp only
    generalize c.at c.r = ch at hq ⊢
    split
    · rename_i hch
      split
      · -- the mark stays for the next call
        have hback : ({ c with r := c.r + 1 - 1 } : Cons) = c := by
          rw [UInt32.add_sub_cancel]
        refine ⟨[], ?_, (append_nil _).symm, not_mem_nil, ?_,
          (show got.length ≤ target by omega), nofun, fun _ _ hg => ?_⟩
        · show Ring { c with r := c.r + 1 - 1 }
          rwa [hback]
        · show c.queue = [] ++ [] ++ Cons.queue { c with r := c.r + 1 - 1 }
          rw [hback]; rfl
        · rw [show got = [] from hg] at hn
          simp only [length_nil] at hn
          omega
      · rename_i hlt
        have hgot : got = [] := length_eq_zero_iff.mp (by omega)
        refine ⟨[], hr, (append_nil _).symm, not_mem_nil, ?_,
          (show got.length ≤ target by omega), fun _ => hgot, nofun⟩
        rw [hq, hch]
        rfl
    rename_i hch
    have hnot : ctrl 'D' ∉ [ch] := fun hm => hch (mem_singleton.mp hm).symm
    split
    · rename_i hfault
      exact ⟨[], hr, (append_nil _).symm, not_mem_nil, hq,
        (show got.length < target by omega), hfault⟩
    split
    · refine ⟨[ch], hr, rfl, hnot, by rw [hq]; rfl, ?_, nofun, fun _ _ => by simp⟩
      rw [length_append]
      simp only [length_cons, length_nil]
      omega
    · have hn' : n + (got ++ [ch]).length = target := by
        simp only [length_append, length_cons, length_nil]; omega
      obtain ⟨new, hring, hgot, hmark, hout⟩ := readLoop_spec ok n (got ++ [ch]) hr hn'
      refine ⟨ch :: new, hring, by rw [hgot, append_assoc]; rfl, ?_, ?_⟩
      · exact fun hm => (mem_cons.mp hm).elim (fun he => hch he.symm) hmark
      generalize readLoop ok target n (got ++ [ch]) { c with r := c.r + 1 } = x at *
      obtain ⟨out, got', c'⟩ := x
      cases out with
      | sleep n' | done eof | fault ch' => exact ⟨by rw [hq, hout.1]; rfl, hout.2⟩

/-- A stretch of `consoleread` moves `r` and nothing else. -/
theorem readLoop_frame (ok : Nat → Bool) (target : Nat) : ∀ (n : Nat) (got : List UInt8) (c : Cons),
    (readLoop ok target n got c).2.2.w = c.w ∧ (readLoop ok target n got c).2.2.e = c.e ∧
      (readLoop ok target n got c).2.2.rawmode = c.rawmode
  | 0, _, _ => ⟨rfl, rfl, rfl⟩
  | n + 1, got, c => by
    rw [readLoop]
    split
    · exact ⟨rfl, rfl, rfl⟩
    simp only
    split
    · split <;> exact ⟨rfl, rfl, rfl⟩
    split
    · exact ⟨rfl, rfl, rfl⟩
    split
    · exact ⟨rfl, rfl, rfl⟩
    · exact readLoop_frame ok target n _ _

/-! ## Whole runs -/

/-- What a finished call has taken from the ring. -/
def Ret.chars (x : Ret) : List UInt8 :=
  x.data ++ (if x.eof then [ctrl 'D'] else []) ++ x.lost.toList

/-- A call stops at a Control-D; it returns nothing only for the mark, and loses a
character only to an unmapped destination. -/
structure Ret.Proper (x : Ret) : Prop where
  length : x.data.length ≤ x.n
  mark : ctrl 'D' ∉ x.data
  eof : x.eof = true → x.data = []
  nonempty : x.killed = false → x.lost = none → 0 < x.n → x.eof = false → x.data ≠ []
  lost : (∀ i < x.n, x.ok i = true) → x.lost = none

variable {P : Type} [DecidableEq P] {s t : Sys P}

/-- What `p` has taken from the ring. -/
def Sys.takenBy (s : Sys P) (p : P) : List UInt8 := (s.taken.filter (·.1 = p)).map Prod.snd

/-- What a sleeping `p` has copied out so far. -/
def Sys.got (s : Sys P) (p : P) : List UInt8 := ((s.reader p).map Reader.got).getD []

structure Good (s : Sys P) : Prop where
  ring : Ring s.cons
  fifo : s.accepted = s.taken.map Prod.snd ++ s.cons.queue
  delivered : ∀ p, s.takenBy p = (s.returned p).flatMap Ret.chars ++ s.got p
  returned : ∀ p, ∀ x ∈ s.returned p, x.Proper
  reader : ∀ p x, s.reader p = some x → x.n + x.got.length = x.target ∧ 0 < x.n ∧ ctrl 'D' ∉ x.got

theorem good_init (h : Init s) : Good s := by
  obtain ⟨hc, hr, ha, ht, hret⟩ := h
  constructor
  · rw [hc]; exact ⟨by decide, by decide⟩
  · rw [ha, ht, hc]; rfl
  · intro p
    simp only [Sys.takenBy, Sys.got, ht, hret, hr]
    rfl
  · intro p x hx
    rw [hret] at hx
    exact absurd hx not_mem_nil
  · intro p x hx
    rw [hr] at hx
    cases hx

/-- Process `p` has taken `l`, returned `rets` and is left as `r`. -/
theorem good_take {p : P} {c : Cons} {l : List UInt8} (r : Option Reader) (rets : List Ret)
    (h : Good s) (hring : Ring c) (hq : s.cons.queue = l ++ c.queue)
    (hl : s.got p ++ l = rets.flatMap Ret.chars ++ (r.map Reader.got).getD [])
    (hrets : ∀ x ∈ rets, x.Proper)
    (hr : ∀ x, r = some x → x.n + x.got.length = x.target ∧ 0 < x.n ∧ ctrl 'D' ∉ x.got) :
    Good { s with cons := c, taken := s.taken ++ l.map (p, ·), reader := update s.reader p r,
                  returned := update s.returned p (s.returned p ++ rets) } where
  ring := hring
  fifo := by
    rw [h.fifo, hq, map_append, map_map, append_assoc]
    congr 2
    exact (map_id' l).symm
  delivered q := by
    have hd := h.delivered q
    unfold Sys.takenBy Sys.got at *
    simp only [filter_append, map_append, hd]
    by_cases hqp : q = p
    · subst hqp
      have hf : ((l.map ((q, ·) : UInt8 → P × UInt8)).filter (·.1 = q)).map Prod.snd = l := by
        rw [filter_eq_self.mpr (by simp), map_map]
        exact map_id' l
      rw [hf, update_self, update_self, flatMap_append, append_assoc, append_assoc, hl]
    · have hf : (l.map ((p, ·) : UInt8 → P × UInt8)).filter (·.1 = q) = [] := by
        rw [filter_eq_nil_iff]
        simp only [mem_map, decide_eq_true_eq, forall_exists_index, and_imp]
        rintro _ ch _ rfl rfl
        exact hqp rfl
      rw [hf, update_of_ne hqp, update_of_ne hqp, map_nil, append_nil]
  returned q x hx := by
    by_cases hqp : q = p
    · subst hqp
      simp only [update_self] at hx
      exact (mem_append.mp hx).elim (h.returned q x) (hrets x)
    · simp only [update_of_ne hqp] at hx
      exact h.returned q x hx
  reader q x hx := by
    by_cases hqp : q = p
    · subst hqp
      simp only [update_self] at hx
      exact hr x hx
    · simp only [update_of_ne hqp] at hx
      exact h.reader q x hx

theorem good_readOn {p : P} {x : Reader} (h : Good s) (hn : x.n + x.got.length = x.target)
    (hmark : ctrl 'D' ∉ x.got) (hgot : s.got p = x.got) (killed : Bool) :
    Good (readOn s p x killed) := by
  obtain ⟨new, hs⟩ := readLoop_spec x.ok x.n x.got h.ring hn
  unfold readOn
  generalize readLoop x.ok x.target x.n x.got s.cons = y at hs ⊢
  obtain ⟨out, got, c⟩ := y
  obtain ⟨hring, rfl, hnew, hout⟩ := hs
  have hm : ctrl 'D' ∉ x.got ++ new := fun hm => (mem_append.mp hm).elim hmark hnew
  simp only [drop_left]
  cases out with
  | sleep n =>
    obtain ⟨hq, hn', hpos⟩ := hout
    simp only
    split
    · refine good_take none _ h hring hq ?_ ?_ (fun _ hx => by cases hx)
      · rw [hgot]
        simp [Ret.chars]
      · intro y hy
        obtain rfl := mem_singleton.mp hy
        exact ⟨hn' ▸ Nat.le_add_left _ _, hm, nofun, nofun, fun _ => rfl⟩
    · have := good_take (some { x with n, got := x.got ++ new }) [] h hring hq
        (by rw [hgot]; rfl) (nofun)
        (fun y hy => by cases hy; exact ⟨hn', hpos, hm⟩)
      simpa only [append_nil, update_eq_self] using this
  | done eof =>
    obtain ⟨hq, hlen, heof, hne⟩ := hout
    have := good_take none
      [⟨x.target, x.ok, x.got ++ new, eof, false, none⟩] h hring hq
      (by rw [hgot]; simp [Ret.chars]) ?_ (fun _ hy => by cases hy)
    · rw [map_append, ← append_assoc] at this
      cases eof <;> exact this
    · intro y hy
      obtain rfl := mem_singleton.mp hy
      exact ⟨hlen, hm, heof, fun _ _ hp he => hne he hp, fun _ => rfl⟩
  | fault ch =>
    obtain ⟨hq, hlen, hok⟩ := hout
    have := good_take none
      [⟨x.target, x.ok, x.got ++ new, false, false, some ch⟩] h hring hq
      (by rw [hgot]; simp [Ret.chars]) ?_ (fun _ hy => by cases hy)
    · rwa [map_append, ← append_assoc] at this
    · intro y hy
      obtain rfl := mem_singleton.mp hy
      refine ⟨hlen.le, hm, nofun, fun _ hl => (by cases hl), fun hall => ?_⟩
      exact absurd ((hall _ hlen).symm.trans hok) (by decide)

/-- What a step needs: a keystroke finds room. -/
def StepRoom (s : Sys P) : Act P → Prop
  | .key ch => Room s.cons ch
  | _ => True

instance (s : Sys P) (a : Act P) : Decidable (StepRoom s a) := match a with
  | .key ch => inferInstanceAs (Decidable (Room s.cons ch))
  | .rawmode _ | .read .. | .wake .. => .isTrue trivial

theorem good_step {a : Act P} (h : Good s) (hroom : StepRoom s a) (hs : step s a = some t) :
    Good t := by
  cases a with
  | key ch =>
    cases hs
    obtain ⟨hring, hrem⟩ := ring_intr h.ring hroom (s.taken.map Prod.snd)
    exact ⟨hring, by rwa [h.fifo], h.delivered, h.returned, h.reader⟩
  | rawmode _ =>
    cases hs
    exact ⟨⟨h.ring.wr, h.ring.er⟩, h.fifo, h.delivered, h.returned, h.reader⟩
  | read p n ok killed =>
    rw [step] at hs
    split at hs
    · cases hs
    rename_i hnone
    cases hs
    refine good_readOn h rfl not_mem_nil ?_ killed
    rw [Sys.got, not_ne_iff.mp hnone]
    rfl
  | wake p killed =>
    rw [step] at hs
    split at hs
    · cases hs
    rename_i x hx
    cases hs
    obtain ⟨hn, -, hm⟩ := h.reader p x hx
    exact good_readOn h hn hm (by rw [Sys.got, hx]; rfl) killed

/-- The ring is never overrun and the readers get what it has accepted, in every state
of every run in which no Control-H or Delete arrives in raw mode at a full ring. -/
theorem console_fifo {h : List (Sys P × Act P)} (r : Run Init step h s)
    (hroom : ∀ x ∈ h, StepRoom x.1 x.2) : (∀ x ∈ h, Good x.1) ∧ Good s :=
  r.forall_states (fun _ _ r hroom =>
    r.inv_of_steps (fun _ => good_init) (fun _ _ _ => good_step) hroom) hroom

/-- The console at boot, with one process. -/
def booted : Sys Unit := ⟨⟨fun _ => 0, 0, 0, 0, 0⟩, fun _ => none, [], [], fun _ => []⟩

theorem init_booted : Init booted := ⟨rfl, fun _ => rfl, rfl, rfl, fun _ => rfl⟩

/-- Raw mode, a full ring of `a`, and Delete. -/
def fullThenDelete : List (Act Unit) :=
  .rawmode 1 :: List.replicate INPUT_BUF_SIZE (.key 'a'.toNat.toUInt8) ++ [.key delete]

set_option maxRecDepth 20000 in
/-- Delete is stored over the first `a`, which nobody has read. -/
theorem ring_overrun : ∃ (h : List (Sys Unit × Act Unit)) (s : Sys Unit), Run Init step h s ∧
    ¬ Ring s.cons ∧ s.taken = [] ∧ s.accepted.head? = some 'a'.toNat.toUInt8 ∧
    s.cons.at s.cons.r = delete := by
  have he : (exec step booted fullThenDelete).map (fun s => (decide ((s.cons.e - s.cons.r).toNat =
      129), s.taken, s.accepted.head?, s.cons.at s.cons.r)) =
      some (true, [], some 'a'.toNat.toUInt8, delete) := by decide +kernel
  obtain ⟨s, r, hv⟩ := run_of_exec init_booted he
  simp only [Prod.mk.injEq, decide_eq_true_eq] at hv
  obtain ⟨hlen, htaken, hacc, hat⟩ := hv
  refine ⟨_, s, r, fun hring => ?_, htaken, hacc, hat⟩
  have := hring.er
  rw [hlen] at this
  exact absurd this (by decide)

/-- A line typed with an erased character, and read. -/
def typeAndRead : List (Act Unit) :=
  [.key 'h'.toNat.toUInt8, .key 'u'.toNat.toUInt8, .key delete, .key 'i'.toNat.toUInt8,
   .key carriageReturn, .read () 10 (fun _ => true) false]

theorem console_fifo_line : ∃ (h : List (Sys Unit × Act Unit)) (s : Sys Unit),
    Run Init step h s ∧ (∀ x ∈ h, StepRoom x.1 x.2) ∧ ((∀ x ∈ h, Good x.1) ∧ Good s) ∧
    (s.returned ()).map Ret.data = [['h'.toNat.toUInt8, 'i'.toNat.toUInt8, newline]] := by
  have he : (exec step booted typeAndRead).map (fun s => (s.returned ()).map Ret.data) =
      some [['h'.toNat.toUInt8, 'i'.toNat.toUInt8, newline]] := by decide +kernel
  obtain ⟨s, r, hv⟩ := run_of_exec init_booted he
  have hroom : ∀ x ∈ hist step booted typeAndRead, StepRoom x.1 x.2 := by decide +kernel
  exact ⟨_, s, r, hroom, console_fifo r hroom, hv⟩

end Xv6.Console
