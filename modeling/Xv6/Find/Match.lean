/-
# `Xv6.Find.Match` — the matcher of `user/find.c` and `user/grep.c`

`match`, `matchhere` and `matchstar`, which the two programs have in the same words, and
what a regular expression means on its own:
a list of items, `c` or `.` for one character, `c*` for any number of them, and a `$`
at the end for the end of the text; a `^` in front ties it to the start of the text.

**Proved here.**

  * `match` decides whether a part of the text is in the language of the items
    (`match_language`)
-/
import Mathlib.Computability.Language
import Xv6.Lib.Text

namespace Xv6.Find

open List

/-! ## The code -/

/-- `matchstar(c, regexp, text)`, with `here` for `matchhere(regexp, ·)`. -/
def matchstar (c : Char) (here : Str → Bool) : Str → Bool
  | [] => here []
  | d :: text => here (d :: text) || ((d = c || c = '.') && matchstar c here text)

def matchhere : Str → Str → Bool
  | [], _ => true
  | c :: '*' :: re, text => matchstar c (matchhere re) text
  | ['$'], text => text.isEmpty
  | _ :: _, [] => false
  | c :: re, d :: text => (c = '.' || c = d) && matchhere re text

/-- The `do` loop of `match`. -/
def matchAny (re : Str) : Str → Bool
  | [] => matchhere re []
  | d :: text => matchhere re (d :: text) || matchAny re text

def match_ (re text : Str) : Bool := match re with
  | '^' :: re => matchhere re text
  | re => matchAny re text

/-! ## What an expression means -/

inductive Item
  | one (c : Char)
  | star (c : Char)
  | atEnd
deriving DecidableEq

def items : Str → List Item
  | [] => []
  | c :: '*' :: re => .star c :: items re
  | ['$'] => [.atEnd]
  | c :: re => .one c :: items re

/-- `c` stands for `d`. -/
def Stands (c d : Char) : Prop := c = '.' ∨ d = c

/-- The items match some initial part of the text. -/
inductive Begins : List Item → Str → Prop
  | nil {text} : Begins [] text
  | one {c d is text} : Stands c d → Begins is text → Begins (.one c :: is) (d :: text)
  | star {c is u text} : (∀ d ∈ u, Stands c d) → Begins is text → Begins (.star c :: is) (u ++ text)
  | atEnd : Begins [.atEnd] []

/-- The regular expression `re` matches in the text. -/
def Finds (re text : Str) : Prop := match re with
  | '^' :: re => Begins (items re) text
  | re => ∃ u v, text = u ++ v ∧ Begins (items re) v

/-! ## The code computes it -/

variable {c : Char} {is : List Item} {w re : Str}

theorem matchstar_iff {here : Str → Bool}
    (h : ∀ text, here text = true ↔ Begins is text) (text : Str) :
    matchstar c here text = true ↔ Begins (.star c :: is) text := by
  induction text with
  | nil =>
    rw [matchstar, h]
    constructor
    · exact fun hb => .star (u := []) nofun hb
    · intro hb
      generalize ht : ([] : Str) = text at hb
      cases hb with
      | @star _ _ u text _ hb =>
        obtain ⟨rfl, rfl⟩ := nil_eq_append_iff.mp ht
        exact hb
  | cons d text ih =>
    rw [matchstar, Bool.or_eq_true, h, Bool.and_eq_true, ih, Bool.or_eq_true, decide_eq_true_eq,
      decide_eq_true_eq]
    constructor
    · rintro (hb | ⟨hs, hb⟩)
      · exact .star (u := []) nofun hb
      · generalize text = rest at hb ⊢
        cases hb with
        | @star _ _ u text hu hb =>
          refine Begins.star (u := d :: u) (fun e he => ?_) hb
          rcases mem_cons.mp he with rfl | he
          · exact hs.symm
          · exact hu e he
    · intro hb
      generalize ht : d :: text = rest at hb
      cases hb with
      | @star _ _ u text' hu hb =>
        cases u with
        | nil => exact .inl ((show d :: text = text' from ht) ▸ hb)
        | cons e u =>
          cases ht
          have hd := hu d mem_cons_self
          exact .inr ⟨hd.symm, .star (fun e he => hu e (mem_cons_of_mem _ he)) hb⟩

theorem matchhere_iff (re text : Str) : matchhere re text = true ↔ Begins (items re) text := by
  fun_induction items re generalizing text with
  | case1 => exact ⟨fun _ => .nil, fun _ => by rw [matchhere]⟩
  | case2 c re ih => rw [matchhere]; exact matchstar_iff ih text
  | case3 =>
    cases text with
    | nil => exact ⟨fun _ => .atEnd, fun _ => rfl⟩
    | cons d text => exact ⟨nofun, nofun⟩
  | case4 c re hstar hend ih =>
    cases text with
    | nil =>
      rw [matchhere]
      · exact ⟨nofun, nofun⟩
      · exact hstar
      · exact hend
    | cons d text =>
      rw [matchhere, Bool.and_eq_true, ih, Bool.or_eq_true, decide_eq_true_eq, decide_eq_true_eq]
      · constructor
        · exact fun h => .one (h.1.imp_right Eq.symm) h.2
        · intro h
          cases h with
          | one hs hb => exact ⟨hs.imp_right Eq.symm, hb⟩
      · exact hstar
      · exact hend

theorem matchAny_iff (re text : Str) :
    matchAny re text = true ↔ ∃ u v, text = u ++ v ∧ Begins (items re) v := by
  induction text with
  | nil =>
    rw [matchAny, matchhere_iff]
    constructor
    · exact fun h => ⟨[], [], rfl, h⟩
    · rintro ⟨u, v, h, hb⟩
      obtain ⟨rfl, rfl⟩ := nil_eq_append_iff.mp h
      exact hb
  | cons d text ih =>
    rw [matchAny, Bool.or_eq_true, matchhere_iff, ih]
    constructor
    · rintro (h | ⟨u, v, rfl, h⟩)
      · exact ⟨[], d :: text, rfl, h⟩
      · exact ⟨d :: u, v, rfl, h⟩
    · rintro ⟨u, v, h, hb⟩
      cases u with
      | nil => exact .inl (h ▸ hb)
      | cons e u =>
        cases h
        exact .inr ⟨u, v, rfl, hb⟩

theorem match_iff (re text : Str) : match_ re text = true ↔ Finds re text := by
  unfold match_ Finds
  split
  · exact matchhere_iff _ _
  · exact matchAny_iff _ _

/-! ## The language of an expression -/

/-- The strings of one character that `c` stands for. -/
def single (c : Char) : Language Char := {w | ∃ d, Stands c d ∧ w = [d]}

/-- The strings an item stands for; a `$` at the end takes up nothing. -/
def Item.lang : Item → Language Char
  | .one c => single c
  | .star c => KStar.kstar (single c)
  | .atEnd => 1

def lang (is : List Item) : Language Char := (is.map Item.lang).prod

theorem mem_lang_star : w ∈ (Item.star c).lang ↔ ∀ d ∈ w, Stands c d := by
  constructor
  · rintro ⟨ws, rfl, h⟩ d hd
    obtain ⟨x, hx, hdx⟩ := mem_flatten.mp hd
    obtain ⟨e, he, rfl⟩ := h x hx
    rwa [mem_singleton.mp hdx]
  · intro h
    refine ⟨w.map fun d => [d], ?_, fun x hx => ?_⟩
    · induction w with
      | nil => rfl
      | cons d w ih =>
        rw [map_cons, flatten_cons, ← ih fun e he => h e (mem_cons_of_mem _ he)]
        rfl
    · obtain ⟨d, hd, rfl⟩ := mem_map.mp hx
      exact ⟨d, h d hd, rfl⟩

theorem mem_lang_cons {i : Item} :
    w ∈ lang (i :: is) ↔ ∃ a ∈ i.lang, ∃ b ∈ lang is, a ++ b = w := by
  exact Language.mem_mul

/-- What begins a text is in the language, and is all of it if a `$` says so. -/
theorem begins_iff (re : Str) : ∀ text : Str, Begins (items re) text ↔
    ∃ w v, text = w ++ v ∧ w ∈ lang (items re) ∧ (.atEnd ∈ items re → v = []) := by
  fun_induction items re with
  | case1 => exact fun text => ⟨fun _ => ⟨[], text, rfl, rfl, nofun⟩, fun _ => .nil⟩
  | case2 c re ih =>
    intro text
    constructor
    · intro hb
      cases hb with
      | @star _ _ u text hu hb =>
        obtain ⟨w, v, rfl, hw, hv⟩ := (ih _).mp hb
        exact ⟨u ++ w, v, (append_assoc ..).symm,
          mem_lang_cons.mpr ⟨u, mem_lang_star.mpr hu, w, hw, rfl⟩, by simpa using hv⟩
    · rintro ⟨_, v, rfl, hw, hv⟩
      obtain ⟨u, hu, w, hrest, rfl⟩ := mem_lang_cons.mp hw
      rw [append_assoc]
      exact .star (mem_lang_star.mp hu) ((ih _).mpr ⟨w, v, rfl, hrest, by simpa using hv⟩)
  | case3 =>
    intro text
    constructor
    · intro hb
      cases hb
      exact ⟨[], [], rfl, by simp [lang, Item.lang], fun _ => rfl⟩
    · rintro ⟨w, v, rfl, hw, hv⟩
      obtain rfl : w = [] := by simpa [lang, Item.lang] using hw
      rw [hv mem_cons_self]
      exact .atEnd
  | case4 c re _ _ ih =>
    intro text
    constructor
    · intro hb
      cases hb with
      | @one _ d _ text hd hb =>
        obtain ⟨w, v, rfl, hw, hv⟩ := (ih _).mp hb
        exact ⟨d :: w, v, rfl, mem_lang_cons.mpr ⟨[d], ⟨d, hd, rfl⟩, w, hw, rfl⟩, by simpa using hv⟩
    · rintro ⟨_, v, rfl, hw, hv⟩
      obtain ⟨_, ⟨d, hd, rfl⟩, w, hrest, rfl⟩ := mem_lang_cons.mp hw
      exact .one hd ((ih _).mpr ⟨w, v, rfl, hrest, by simpa using hv⟩)

/-- The expression without a `^` in front. -/
def body : Str → Str
  | '^' :: re => re
  | re => re

/-- `match` is non-zero exactly if some part of the text is in the language of the
expression; a `^` ties it to the start of the text and a `$` to its end. -/
theorem match_language (re text : Str) : match_ re text = true ↔
    ∃ u w v, text = u ++ w ++ v ∧ w ∈ lang (items (body re)) ∧
      (re.head? = some '^' → u = []) ∧ (.atEnd ∈ items (body re) → v = []) := by
  rw [match_iff]
  unfold Finds body
  split
  · rw [begins_iff]
    constructor
    · exact fun ⟨w, v, h, hw, hv⟩ => ⟨[], w, v, h, hw, fun _ => rfl, hv⟩
    · rintro ⟨u, w, v, h, hw, hu, hv⟩
      rw [hu rfl] at h
      exact ⟨w, v, h, hw, hv⟩
  · next hre =>
    constructor
    · rintro ⟨u, _, rfl, hb⟩
      obtain ⟨w, v, rfl, hw, hv⟩ := (begins_iff ..).mp hb
      refine ⟨u, w, v, (append_assoc ..).symm, hw, fun h => ?_, hv⟩
      cases re with
      | nil => cases h
      | cons c re => cases h; exact absurd rfl (hre re)
    · rintro ⟨u, w, v, rfl, hw, -, hv⟩
      exact ⟨u, w ++ v, append_assoc .., (begins_iff ..).mpr ⟨w, v, rfl, hw, hv⟩⟩

/-! ## Ordinary characters -/

/-- None of the special characters. -/
def Ordinary (s : Str) : Prop := ∀ c ∈ s, c ∉ ['^', '$', '.', '*']

theorem items_ordinary (h : Ordinary re) : items re = re.map .one := by
  induction re with
  | nil => rfl
  | cons c re ih =>
    have hc := h c mem_cons_self
    have hre : Ordinary re := fun d hd => h d (mem_cons_of_mem _ hd)
    rw [items]
    · rw [ih hre, map_cons]
    · rintro re' rfl
      exact hre '*' mem_cons_self (by decide)
    · rintro rfl
      exact absurd hc (by decide)

theorem begins_ordinary (h : Ordinary re) : ∀ text : Str,
    Begins (re.map .one) text ↔ re <+: text := by
  induction re with
  | nil => exact fun text => ⟨fun _ => nil_prefix, fun _ => .nil⟩
  | cons c re ih =>
    have hc := h c mem_cons_self
    have ih := ih fun d hd => h d (mem_cons_of_mem _ hd)
    intro text
    cases text with
    | nil => exact ⟨nofun, fun hp => absurd (prefix_nil.mp hp) (cons_ne_nil _ _)⟩
    | cons d text =>
      rw [cons_prefix_cons, ← ih]
      constructor
      · intro hb
        cases hb with
        | one hs hb =>
          refine ⟨(hs.resolve_left ?_).symm, hb⟩
          rintro rfl
          exact hc (by decide)
      · exact fun hb => .one (.inr hb.1.symm) hb.2

theorem finds_ordinary (h : Ordinary re) (text : Str) : Finds re text ↔ re <:+: text := by
  unfold Finds
  split
  · exact absurd (h '^' mem_cons_self) (by decide)
  · constructor
    · rintro ⟨u, v, rfl, hb⟩
      rw [items_ordinary h, begins_ordinary h] at hb
      obtain ⟨w, rfl⟩ := hb
      exact ⟨u, w, append_assoc ..⟩
    · rintro ⟨u, w, rfl⟩
      refine ⟨u, re ++ w, append_assoc .., ?_⟩
      rw [items_ordinary h, begins_ordinary h]
      exact prefix_append _ _

end Xv6.Find
