/-
# `Xv6.Lib.Memory` — memory behind a translation

A memory `m` gives every location a value; a translation `tr` gives every address a
location.  `poke` stores a list of values at consecutive addresses, in order, and
`peek` reads it.  Two addresses may have one location: then the later store wins,
and only reading back needs the translation to be injective.  At the end: the bytes
of a number, the lowest first.
-/
import Mathlib.Data.UInt

namespace Machine

open Function List

variable {α β : Type} [DecidableEq α] {tr tr' : Nat → α} {m m' : α → β}

/-- The values are stored at `va`, `va + 1`, ... -/
def poke (tr : Nat → α) : Nat → List β → (α → β) → α → β
  | _, [], m => m
  | va, b :: bs, m => poke tr (va + 1) bs (update m (tr va) b)

/-- What is stored at `va`, ..., `va + n - 1`. -/
def peek (tr : Nat → α) (va n : Nat) (m : α → β) : List β := (List.range n).map fun i => m (tr (va + i))

omit [DecidableEq α] in
@[simp] theorem length_peek (va n : Nat) : (peek tr va n m).length = n := by simp [peek]

omit [DecidableEq α] in
theorem peek_add (va n k : Nat) : peek tr va (n + k) m = peek tr va n m ++ peek tr (va + n) k m := by
  simp only [peek, range_add, map_append, map_map]
  congr 1
  refine map_congr_left fun i _ => ?_
  simp [Nat.add_assoc]

omit [DecidableEq α] in
theorem peek_congr {va va' n : Nat} (h : ∀ i < n, m (tr (va + i)) = m' (tr' (va' + i))) :
    peek tr va n m = peek tr' va' n m' :=
  map_congr_left fun i hi => h i (mem_range.mp hi)

omit [DecidableEq α] in
theorem getElem_peek {va n i : Nat} (h : i < (peek tr va n m).length) :
    (peek tr va n m)[i] = m (tr (va + i)) := by simp [peek]

theorem poke_append : ∀ (va : Nat) (as bs : List β) (m : α → β),
    poke tr va (as ++ bs) m = poke tr (va + as.length) bs (poke tr va as m)
  | _, [], _, _ => rfl
  | va, a :: as, bs, m => by
    rw [cons_append, poke, poke, poke_append (va + 1) as bs, length_cons]
    congr 1
    omega

theorem poke_congr : ∀ {va va' : Nat} (bs : List β) (m : α → β),
    (∀ i < bs.length, tr (va + i) = tr' (va' + i)) → poke tr va bs m = poke tr' va' bs m
  | _, _, [], _, _ => rfl
  | va, va', b :: bs, m, h => by
    rw [poke, poke, show tr va = tr' va' from h 0 (Nat.succ_pos _)]
    refine poke_congr bs _ fun i hi => ?_
    have := h (i + 1) (Nat.succ_lt_succ hi)
    rwa [show va + (i + 1) = va + 1 + i by omega, show va' + (i + 1) = va' + 1 + i by omega] at this

/-- Nothing else is changed. -/
theorem poke_frame : ∀ {va : Nat} (bs : List β) (m : α → β) {a : α},
    (∀ i < bs.length, tr (va + i) ≠ a) → poke tr va bs m a = m a
  | _, [], _, _, _ => rfl
  | va, b :: bs, m, a, h => by
    rw [poke, poke_frame bs _ fun i hi => ?_]
    · exact update_of_ne (Ne.symm (h 0 (Nat.succ_pos _))) ..
    · have := h (i + 1) (Nat.succ_lt_succ hi)
      rwa [show va + (i + 1) = va + 1 + i by omega] at this

/-- Where the translation is injective, what was stored is read back. -/
theorem poke_get : ∀ (va : Nat) (bs : List β) (m : α → β),
    Set.InjOn tr (Set.Ico va (va + bs.length)) → ∀ i (hi : i < bs.length),
    poke tr va bs m (tr (va + i)) = bs[i]
  | va, b :: bs, m, hinj, i, hi => by
    rw [length_cons] at hinj hi
    rw [poke]
    cases i with
    | zero =>
      rw [poke_frame bs _ fun j hj he => ?_]
      · exact update_self ..
      · have := hinj (by constructor <;> omega) (by constructor <;> omega) he
        omega
    | succ i =>
      rw [show va + (i + 1) = va + 1 + i by omega, getElem_cons_succ]
      refine poke_get (va + 1) bs _ (hinj.mono fun x hx => ?_) i (by omega)
      exact ⟨by have := hx.1; omega, by have := hx.2; omega⟩

/-- A part of what was stored. -/
theorem peek_poke_part (va : Nat) {j n : Nat} (bs : List β) (m : α → β)
    (hinj : Set.InjOn tr (Set.Ico va (va + bs.length))) (hn : j + n ≤ bs.length) :
    peek tr (va + j) n (poke tr va bs m) = (bs.drop j).take n := by
  have hlen : ((bs.drop j).take n).length = n := by
    rw [length_take, length_drop]
    omega
  refine ext_getElem (by rw [length_peek, hlen]) fun i h _ => ?_
  rw [getElem_peek, getElem_take, getElem_drop, Nat.add_assoc]
  exact poke_get va bs m hinj (j + i) (by omega)

theorem peek_poke (va : Nat) (bs : List β) (m : α → β)
    (hinj : Set.InjOn tr (Set.Ico va (va + bs.length))) :
    peek tr va bs.length (poke tr va bs m) = bs := by
  have := peek_poke_part va (j := 0) (n := bs.length) bs m hinj (by omega)
  rwa [drop_zero, take_length] at this

/-- Stores to memories that agree on `S` leave them so. -/
theorem poke_agree {S : Set α} : ∀ {va : Nat} (bs : List β) {m m' : α → β},
    (∀ a ∈ S, m a = m' a) → ∀ {a : α}, a ∈ S → poke tr va bs m a = poke tr va bs m' a
  | _, [], _, _, h, _, ha => h _ ha
  | va, b :: bs, m, m', h, a, ha => by
    refine poke_agree bs (fun c hc => ?_) ha
    by_cases hca : c = tr va
    · rw [hca, update_self, update_self]
    · rw [update_of_ne hca, update_of_ne hca]
      exact h c hc

/-- Seen through a translation that is injective on `S`, a store to addresses of `S` is
a store to the memory that the translation shows. -/
theorem poke_view {S : Set Nat} (hinj : Set.InjOn tr S) : ∀ {va : Nat} (bs : List β) (m : α → β),
    (∀ i < bs.length, va + i ∈ S) → ∀ {vb : Nat}, vb ∈ S →
    poke tr va bs m (tr vb) = poke id va bs (fun v => m (tr v)) vb
  | _, [], _, _, _, _ => rfl
  | va, b :: bs, m, hr, vb, hb => by
    have hva : va ∈ S := hr 0 (Nat.succ_pos _)
    have hrest : ∀ i < bs.length, va + 1 + i ∈ S := fun i hi => by
      have := hr (i + 1) (Nat.succ_lt_succ hi)
      rwa [show va + (i + 1) = va + 1 + i by omega] at this
    rw [poke, poke, poke_view hinj bs _ hrest hb]
    -- inside `S` the two memories agree, and nothing else is looked at
    have hsame : ∀ v ∈ S, update m (tr va) b (tr v) =
        update (fun v => m (tr v)) (id va) b v := by
      intro v hv
      rw [id_eq]
      by_cases h : v = va
      · rw [h, update_self, update_self]
      · rw [update_of_ne fun he => h (hinj hv hva he), update_of_ne h]
    exact poke_agree bs hsame hb

/-! ## Little-endian words -/

/-- The number that the bytes stand for. -/
def leWord (bs : List UInt8) : Nat := bs.foldr (fun b w => b.toNat + 256 * w) 0

/-- The `n` low bytes of a number. -/
def leBytes : Nat → Nat → List UInt8
  | 0, _ => []
  | n + 1, w => UInt8.ofNat w :: leBytes n (w / 256)

@[simp] theorem length_leBytes : ∀ n w : Nat, (leBytes n w).length = n
  | 0, _ => rfl
  | n + 1, w => by rw [leBytes, length_cons, length_leBytes n]

theorem leWord_leBytes : ∀ {n w : Nat}, w < 256 ^ n → leWord (leBytes n w) = w
  | 0, w, h => by
    obtain rfl : w = 0 := by omega
    rfl
  | n + 1, w, h => by
    have hdiv : w / 256 < 256 ^ n := by
      rwa [Nat.div_lt_iff_lt_mul (by decide), ← Nat.pow_succ]
    have ih := leWord_leBytes hdiv
    show (UInt8.ofNat w).toNat + 256 * leWord (leBytes n (w / 256)) = w
    rw [ih, UInt8.toNat_ofNat']
    omega

theorem length_flatMap_leBytes (n : Nat) : ∀ ws : List Nat,
    (ws.flatMap (leBytes n)).length = n * ws.length
  | [] => rfl
  | w :: ws => by
    rw [flatMap_cons, length_append, length_leBytes, length_flatMap_leBytes n ws,
      length_cons, Nat.mul_succ, Nat.add_comm]

theorem drop_flatMap_leBytes (n : Nat) : ∀ (ws : List Nat) (i : Nat),
    (ws.flatMap (leBytes n)).drop (n * i) = (ws.drop i).flatMap (leBytes n)
  | ws, 0 => rfl
  | [], i + 1 => by rw [flatMap_nil, drop_nil, drop_nil, flatMap_nil]
  | w :: ws, i + 1 => by
    rw [flatMap_cons, Nat.mul_succ, Nat.add_comm, ← drop_drop,
      drop_left' (length_leBytes n w), drop_flatMap_leBytes n ws i, drop_succ_cons]

/-- The `i`-th word of an array of words. -/
theorem word_flatMap_leBytes (n : Nat) : ∀ (ws : List Nat) (i : Nat) (hi : i < ws.length),
    ((ws.flatMap (leBytes n)).drop (n * i)).take n = leBytes n ws[i]
  | w :: ws, 0, _ => by
    exact take_left' (length_leBytes n w)
  | w :: ws, i + 1, hi => by
    rw [flatMap_cons, Nat.mul_succ, Nat.add_comm, ← drop_drop,
      drop_left' (length_leBytes n w)]
    exact word_flatMap_leBytes n ws i (Nat.lt_of_succ_lt_succ hi)

end Machine
