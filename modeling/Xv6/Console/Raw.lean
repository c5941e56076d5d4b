/-
# `Xv6.Console.Raw` — what raw mode delivers

In raw mode every character that `consoleintr` stores is committed at once, so the
line from `w` to `e` is always empty.  Control-H and Delete are stored like any other
key, but Control-U is not: its case comes first and erases the empty line.

**Proved here.**

  * the readers get all keys exactly if none is Control-U (`raw_delivers_iff`)
  * Control-U and `a` are typed, `a` is read (`raw_loses_kill`)
-/
import Xv6.Console.Ring

namespace Xv6.Console

open Machine Function List

/-- A key as the ring keeps it. -/
def cooked (ch : UInt8) : UInt8 := if ch = carriageReturn then newline else ch

variable {c : Cons}

/-- In raw mode, with nothing uncommitted. -/
structure Cons.Raw (c : Cons) : Prop where
  mode : c.rawmode ≠ 0
  line : c.w = c.e

/-- A key that raw mode is to pass on, at a ring that is not full. -/
structure Plain (c : Cons) (ch : UInt8) : Prop where
  nul : ch ≠ 0
  procdump : ch ≠ ctrl 'P'
  eof : ch ≠ ctrl 'D'
  room : (c.e - c.r).toNat < INPUT_BUF_SIZE

variable {ch : UInt8}

theorem intr_raw (h : c.Raw) (hch : Plain c ch) : consoleintr ch c =
      if ch = ctrl 'U' then c else { c.store (cooked ch) with w := c.e + 1 } := by
  unfold consoleintr
  rw [if_neg hch.procdump]
  by_cases hU : ch = ctrl 'U'
  · rw [if_pos hU, if_pos hU, h.line, UInt32.sub_self]
    rfl
  rw [if_neg hU, if_neg hU]
  by_cases hH : ch = ctrl 'H' ∨ ch = delete
  · have hcr : cooked ch = ch := if_neg (by rcases hH with rfl | rfl <;> decide)
    rw [if_pos hH, if_neg h.mode, hcr]
    rfl
  · rw [if_neg hH, if_pos ⟨hch.nul, UInt32.lt_iff_toNat_lt.mpr hch.room⟩]
    exact if_pos h.mode

/-- Only Control-U is not remembered. -/
theorem remember_raw (h : c.Raw) (hch : Plain c ch) (l : List UInt8) :
    remember ch c l = l ++ ([ch].filter (· ≠ ctrl 'U')).map cooked := by
  by_cases hU : ch = ctrl 'U'
  · have he : consoleintr ch c = c := by rw [intr_raw h hch, if_pos hU]
    have hne : (consoleintr ch c).e ≠ c.e + 1 := by
      rw [he]
      intro heq
      have := congrArg UInt32.toNat heq
      rw [UInt32.toNat_add, UInt32.toNat_one] at this
      omega
    rw [remember_erased l hne, he, UInt32.sub_self]
    simp [hU]
  · have he : (consoleintr ch c).e = c.e + 1 := by rw [intr_raw h hch, if_neg hU]; rfl
    rw [remember_stored l he]
    simp [hU, cooked]

/-! ## Readers -/

variable {P : Type} [DecidableEq P] {s t s₀ : Sys P}

/-- Everybody reads into mapped memory. -/
structure Mapped (s : Sys P) : Prop where
  reader : ∀ p x, s.reader p = some x → ∀ i < x.target, x.ok i = true
  returned : ∀ p, ∀ x ∈ s.returned p, ∀ i < x.n, x.ok i = true

theorem readOn_raw {p : P} {x : Reader} (killed : Bool) (h : s.cons.Raw) (hm : Mapped s)
    (hok : ∀ i < x.target, x.ok i = true) :
    (readOn s p x killed).cons.Raw ∧ Mapped (readOn s p x killed) ∧
      (readOn s p x killed).accepted = s.accepted := by
  obtain ⟨hw, he, hmode⟩ := readLoop_frame x.ok x.target x.n x.got s.cons
  unfold readOn
  generalize readLoop x.ok x.target x.n x.got s.cons = y at hw he hmode ⊢
  obtain ⟨out, got, c⟩ := y
  have hc : c.Raw := ⟨fun h0 => h.mode (hmode.symm.trans h0), hw.trans (h.line.trans he.symm)⟩
  have hreader : ∀ r : Option Reader, (∀ z, r = some z → z.target = x.target ∧ z.ok = x.ok) →
      ∀ q z, update s.reader p r q = some z → ∀ i < z.target, z.ok i = true := by
    intro r hr q z hz
    by_cases hq : q = p
    · subst hq
      rw [update_self] at hz
      obtain ⟨ht, ho⟩ := hr z hz
      rwa [ht, ho]
    · rw [update_of_ne hq] at hz
      exact hm.reader q z hz
  have hreturned : ∀ y : Ret, y.n = x.target → y.ok = x.ok →
      ∀ q, ∀ z ∈ update s.returned p (s.returned p ++ [y]) q, ∀ i < z.n, z.ok i = true := by
    intro y hn ho q z hz
    by_cases hq : q = p
    · subst hq
      rw [update_self] at hz
      rcases mem_append.mp hz with hz | hz
      · exact hm.returned q z hz
      · obtain rfl := mem_singleton.mp hz
        rwa [hn, ho]
    · rw [update_of_ne hq] at hz
      exact hm.returned q z hz
  have hnone := hreader none fun z hz => by cases hz
  cases out with
  | sleep n =>
    simp only
    split
    · exact ⟨hc, ⟨hnone, hreturned _ rfl rfl⟩, rfl⟩
    · refine ⟨hc, ⟨hreader _ fun z hz => ?_, hm.returned⟩, rfl⟩
      cases hz
      exact ⟨rfl, rfl⟩
  | done eof | fault ch => exact ⟨hc, ⟨hnone, hreturned _ rfl rfl⟩, rfl⟩

/-! ## Whole runs -/

/-- Raw mode and an empty ring, before anybody has read. -/
structure RawStart (s : Sys P) : Prop where
  mode : s.cons.rawmode ≠ 0
  read : s.cons.r = s.cons.e
  line : s.cons.w = s.cons.e
  reader : ∀ p, s.reader p = none
  accepted : s.accepted = []
  taken : s.taken = []
  returned : ∀ p, s.returned p = []

/-- The mode stays, keys find room, and reads are into mapped memory. -/
def RawStep (s : Sys P) : Act P → Prop
  | .key ch => Plain s.cons ch
  | .rawmode _ => False
  | .read _ n ok _ => ∀ i < n.toNat, ok i = true
  | .wake .. => True

/-- The keys pressed in a history. -/
def keys (h : List (Sys P × Act P)) : List UInt8 :=
  h.filterMap fun x => match x.2 with
    | .key ch => some ch
    | _ => none

/-- The readers have got, or will get from the ring, the characters `l`: what was read
is in the order of the keys, and each process has it in what its calls copied out. -/
structure Delivers (s : Sys P) (l : List UInt8) : Prop where
  order : s.taken.map Prod.snd ++ s.cons.queue = l
  copied : ∀ p, s.takenBy p = (s.returned p).flatMap Ret.data ++ s.got p

structure RawInv (h : List (Sys P × Act P)) (s : Sys P) : Prop where
  good : Good s
  raw : s.cons.Raw
  mapped : Mapped s
  accepted : s.accepted = ((keys h).filter (· ≠ ctrl 'U')).map cooked
  mark : ctrl 'D' ∉ keys h

omit [DecidableEq P] in
theorem keys_snoc (h : List (Sys P × Act P)) (s : Sys P) (a : Act P) :
    keys (h ++ [(s, a)]) = keys h ++ keys [(s, a)] := filterMap_append

theorem rawInv_start (h : RawStart s) : RawInv [] s where
  good := by
    refine ⟨⟨?_, ?_⟩, ?_, fun p => ?_, fun p x hx => ?_, fun p x hx => ?_⟩
    · rw [h.line]
    · rw [h.read, UInt32.sub_self]
      decide
    · rw [h.accepted, h.taken, Cons.queue, h.read, UInt32.sub_self]
      rfl
    · simp only [Sys.takenBy, Sys.got, h.taken, h.returned, h.reader]
      rfl
    · rw [h.returned] at hx
      exact absurd hx not_mem_nil
    · rw [h.reader] at hx
      cases hx
  raw := ⟨h.mode, h.line⟩
  mapped := by
    refine ⟨fun p x hx => ?_, fun p x hx => ?_⟩
    · rw [h.reader] at hx
      cases hx
    · rw [h.returned] at hx
      exact absurd hx not_mem_nil
  accepted := h.accepted
  mark := not_mem_nil

variable {h : List (Sys P × Act P)}

theorem rawInv_step {a : Act P} (hi : RawInv h s) (ha : RawStep s a)
    (hs : step s a = some t) : RawInv (h ++ [(s, a)]) t := by
  have hread : ∀ {p x killed}, (∀ i < x.target, x.ok i = true) → keys [(s, a)] = [] →
      some (readOn s p x killed) = some t → StepRoom s a → RawInv (h ++ [(s, a)]) t := by
    intro p x killed hok hk ht hroom
    have hgood := good_step hi.good hroom hs
    cases ht
    obtain ⟨hraw, hm, hacc⟩ := readOn_raw killed hi.raw hi.mapped hok
    refine ⟨hgood, hraw, hm, ?_, ?_⟩
    · rw [hacc, hi.accepted, keys_snoc, hk, append_nil]
    · rw [keys_snoc, hk, append_nil]
      exact hi.mark
  cases a with
  | key ch =>
    have hch : Plain s.cons ch := ha
    have hroom : StepRoom s (.key ch) := fun hr => by
      have := hch.room
      rw [hr.2.2] at this
      exact absurd this (by decide)
    have hgood := good_step hi.good hroom hs
    cases hs
    have hk : keys [(s, Act.key ch)] = [ch] := rfl
    refine ⟨hgood, ?_, ⟨hi.mapped.reader, hi.mapped.returned⟩, ?_, ?_⟩
    · show (consoleintr ch s.cons).Raw
      rw [intr_raw hi.raw hch]
      split
      · exact hi.raw
      · exact ⟨hi.raw.mode, rfl⟩
    · show remember ch s.cons s.accepted = _
      rw [remember_raw hi.raw hch, hi.accepted, keys_snoc, hk, filter_append,
        map_append]
    · rw [keys_snoc, hk]
      intro hm
      rcases mem_append.mp hm with hm | hm
      · exact hi.mark hm
      · exact hch.eof (mem_singleton.mp hm).symm
  | rawmode _ => exact ha.elim
  | read p n ok killed =>
    have hs' := hs
    rw [step] at hs'
    split_ifs at hs'
    exact hread (x := ⟨n.toNat, n.toNat, [], ok⟩) ha rfl hs' trivial
  | wake p killed =>
    have hs' := hs
    rw [step] at hs'
    split at hs'
    · cases hs'
    · rename_i x hx
      exact hread (hi.mapped.reader p x hx) rfl hs' trivial

theorem rawInv_run (h₀ : RawStart s₀) (r : Run (· = s₀) step h s)
    (hc : ∀ x ∈ h, RawStep x.1 x.2) : RawInv h s := by
  induction r with
  | init hi => exact hi ▸ rawInv_start h₀
  | @step h s t a r hst ih =>
    exact rawInv_step (ih fun x hx => hc x (mem_append_left _ hx)) (hc (s, a) (by simp)) hst

/-- No call has taken a mark or lost a character. -/
theorem RawInv.delivers (hi : RawInv h s) : Delivers s s.accepted where
  order := hi.good.fifo.symm
  copied p := by
    rw [hi.good.delivered p]
    congr 1
    have hno : ctrl 'D' ∉ s.takenBy p := by
      intro hm
      obtain ⟨y, hy, hyD⟩ := mem_map.mp hm
      have hacc : ctrl 'D' ∈ s.accepted := by
        rw [hi.good.fifo]
        exact mem_append_left _ (mem_map.mpr ⟨y, mem_of_mem_filter hy, hyD⟩)
      rw [hi.accepted] at hacc
      obtain ⟨ch, hch, heq⟩ := mem_map.mp hacc
      have hD : ch = ctrl 'D' := by
        rw [cooked] at heq
        split at heq
        · exact absurd heq (by decide)
        · exact heq
      exact hi.mark (hD ▸ mem_of_mem_filter hch)
    refine flatMap_congr fun x hx => ?_
    have hlost : x.lost = none := (hi.good.returned p x hx).lost (hi.mapped.returned p x hx)
    have heof : x.eof = false := by
      rw [Bool.eq_false_iff]
      intro he
      apply hno
      rw [hi.good.delivered p]
      refine mem_append_left _ (mem_flatMap.mpr ⟨x, hx, ?_⟩)
      simp [Ret.chars, he]
    simp [Ret.chars, hlost, heof]

/-- From an empty ring in raw mode the readers get the keys that were pressed, in order
and with carriage returns read as line feeds, exactly if Control-U is not among them. -/
theorem raw_delivers_iff {h : List (Sys P × Act P)} (h₀ : RawStart s₀)
    (r : Run (· = s₀) step h s) (hc : ∀ x ∈ h, RawStep x.1 x.2) :
    Delivers s ((keys h).map cooked) ↔ ctrl 'U' ∉ keys h := by
  have hi := rawInv_run h₀ r hc
  have hd := hi.delivers
  constructor
  · intro hall hU
    have hlen := congrArg List.length (hd.order.symm.trans hall.order)
    rw [hi.accepted, length_map, length_map] at hlen
    have := (filter_eq_self.mp (filter_sublist.eq_of_length hlen)) _ hU
    simp at this
  · intro hU
    have hfilter : (keys h).filter (· ≠ ctrl 'U') = keys h := by
      refine filter_eq_self.mpr fun ch hch => ?_
      simp only [ne_eq, decide_not, Bool.not_eq_true', decide_eq_false_iff_not]
      exact fun he => hU (he ▸ hch)
    have hacc := hi.accepted
    rw [hfilter] at hacc
    exact hacc ▸ hd

/-- The console at boot, switched to raw mode. -/
def rawBooted : Sys Unit := { booted with cons := { booted.cons with rawmode := 1 } }

theorem rawStart_rawBooted : RawStart rawBooted :=
  ⟨by decide, rfl, rfl, fun _ => rfl, rfl, rfl, fun _ => rfl⟩

instance (c : Cons) (ch : UInt8) : Decidable (Plain c ch) :=
  decidable_of_iff (ch ≠ 0 ∧ ch ≠ ctrl 'P' ∧ ch ≠ ctrl 'D' ∧ (c.e - c.r).toNat < INPUT_BUF_SIZE)
    ⟨fun h => ⟨h.1, h.2.1, h.2.2.1, h.2.2.2⟩, fun h => ⟨h.nul, h.procdump, h.eof, h.room⟩⟩

/-- A key, then a letter, then a read. -/
def keyLetterRead (ch : UInt8) (n : Int) : List (Act Unit) :=
  [.key ch, .key 'a'.toNat.toUInt8, .read () n (fun _ => true) false]

instance (s : Sys Unit) (a : Act Unit) : Decidable (RawStep s a) :=
  match a with
  | .key ch => inferInstanceAs (Decidable (Plain s.cons ch))
  | .rawmode _ => .isFalse id
  | .read _ n ok _ => inferInstanceAs (Decidable (∀ i < n.toNat, ok i = true))
  | .wake .. => .isTrue trivial

/-- Control-U and `a` are typed, and `a` is all that is ever read. -/
theorem raw_loses_kill : ∃ (h : List (Sys Unit × Act Unit)) (s : Sys Unit),
    RawStart rawBooted ∧ Run (· = rawBooted) step h s ∧ (∀ x ∈ h, RawStep x.1 x.2) ∧
    keys h = [ctrl 'U', 'a'.toNat.toUInt8] ∧
    (s.returned ()).map Ret.data = [['a'.toNat.toUInt8]] ∧ s.cons.queue = [] ∧
    ¬ Delivers s ((keys h).map cooked) := by
  have he : (exec step rawBooted (keyLetterRead (ctrl 'U') 1)).map (fun s =>
      ((s.returned ()).map Ret.data, s.cons.queue, s.taken.map Prod.snd)) =
      some ([['a'.toNat.toUInt8]], [], ['a'.toNat.toUInt8]) := by decide +kernel
  obtain ⟨s, r, hv⟩ := @run_of_exec _ _ (· = rawBooted) step _ _ _ rfl _ _ he
  simp only [Prod.mk.injEq] at hv
  obtain ⟨hret, hq, htaken⟩ := hv
  have hc : ∀ x ∈ hist step rawBooted (keyLetterRead (ctrl 'U') 1), RawStep x.1 x.2 := by
    decide +kernel
  have hk : keys (hist step rawBooted (keyLetterRead (ctrl 'U') 1)) =
      [ctrl 'U', 'a'.toNat.toUInt8] := by decide +kernel
  refine ⟨_, s, rawStart_rawBooted, r, hc, hk, hret, hq, fun hd => ?_⟩
  have := hd.order
  rw [hk, hq, htaken] at this
  exact absurd this (by decide)

/-- Delete and `a` are typed and both are read. -/
theorem raw_delivers_delete : ∃ (h : List (Sys Unit × Act Unit)) (s : Sys Unit),
    RawStart rawBooted ∧ Run (· = rawBooted) step h s ∧ (∀ x ∈ h, RawStep x.1 x.2) ∧
    (Delivers s ((keys h).map cooked) ↔ ctrl 'U' ∉ keys h) ∧ ctrl 'U' ∉ keys h ∧
    (s.returned ()).map Ret.data = [[delete, 'a'.toNat.toUInt8]] := by
  have he : (exec step rawBooted (keyLetterRead delete 2)).map (fun s =>
      (s.returned ()).map Ret.data) = some [[delete, 'a'.toNat.toUInt8]] := by decide +kernel
  obtain ⟨s, r, hret⟩ := @run_of_exec _ _ (· = rawBooted) step _ _ _ rfl _ _ he
  have hc : ∀ x ∈ hist step rawBooted (keyLetterRead delete 2), RawStep x.1 x.2 := by
    decide +kernel
  have hU : ctrl 'U' ∉ keys (hist step rawBooted (keyLetterRead delete 2)) := by decide +kernel
  exact ⟨_, s, rawStart_rawBooted, r, hc, raw_delivers_iff rawStart_rawBooted r hc, hU, hret⟩

end Xv6.Console
