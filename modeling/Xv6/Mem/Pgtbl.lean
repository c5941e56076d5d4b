/-
# `Xv6.Mem.Pgtbl` — page tables as trees

A page table of level `l` is a page with 512 entries.  Below level 0 there are
`pte_t`s that map a page or are invalid; above, an entry is invalid or points to a
table of the level below.  A tree cannot say that two entries point to the same
page of memory by accident: that no page has two owners is what
`Xv6.Mem.Conserve` proves, and until the first page with two owners a tree and
the pages it stands for agree.

`leaf` is what a walk down the table finds for an address, `put` stores there,
`tables` are the pages the tree consists of.
-/
import Xv6.Lib.Ledger
import Xv6.Params

namespace Xv6.Mem

open Machine Function Multiset

/-- `pte_t` of a mapped page: its physical address and the bits V, R, W, X, U. -/
structure Pte where
  pa : Nat
  v : Bool
  r : Bool
  w : Bool
  x : Bool
  u : Bool
  deriving DecidableEq

/-- A `pte_t` of value 0. -/
def Pte.zero : Pte := ⟨0, false, false, false, false, false⟩

def Tbl : Nat → Type
  | 0 => Nat × (Fin 512 → Pte)
  | l + 1 => Nat × (Fin 512 → Option (Tbl l))

/-- `pagetable_t`. -/
abbrev Pgtbl := Tbl 2

/-- `PX(level, va)`. -/
def px (level va : Nat) : Fin 512 := ⟨va / 2 ^ (12 + 9 * level) % 512, Nat.mod_lt _ (by decide)⟩

variable {l : Nat}

namespace Tbl

/-- A table of level 0. -/
def bottom (pa : Nat) (f : Fin 512 → Pte) : Tbl 0 := (pa, f)

def node {l : Nat} (pa : Nat) (f : Fin 512 → Option (Tbl l)) : Tbl (l + 1) := (pa, f)

def addr : {l : Nat} → Tbl l → Nat
  | 0, pt => pt.1
  | _ + 1, pt => pt.1

def entry (pt : Tbl 0) : Fin 512 → Pte := pt.2

def child {l : Nat} (pt : Tbl (l + 1)) : Fin 512 → Option (Tbl l) := pt.2

@[simp] theorem addr_bottom (pa : Nat) (f : Fin 512 → Pte) : (bottom pa f).addr = pa := rfl
@[simp] theorem entry_bottom (pa : Nat) (f : Fin 512 → Pte) : (bottom pa f).entry = f := rfl
@[simp] theorem addr_node (pa : Nat) (f : Fin 512 → Option (Tbl l)) : (node pa f).addr = pa := rfl
@[simp] theorem child_node (pa : Nat) (f : Fin 512 → Option (Tbl l)) : (node pa f).child = f := rfl

/-- A page of zeros at `pa`. -/
def fresh : (l : Nat) → Nat → Tbl l
  | 0, pa => bottom pa fun _ => Pte.zero
  | _ + 1, pa => node pa fun _ => none

/-- The tables down to level 0 are there. -/
def present : {l : Nat} → Tbl l → Nat → Bool
  | 0, _, _ => true
  | l + 1, pt, va =>
    match pt.child (px (l + 1) va) with
    | none => false
    | some c => c.present va

/-- The entry of level 0 for `va`; invalid if a table is missing. -/
def leaf : {l : Nat} → Tbl l → Nat → Pte
  | 0, pt, va => pt.entry (px 0 va)
  | l + 1, pt, va =>
    match pt.child (px (l + 1) va) with
    | none => Pte.zero
    | some c => c.leaf va

/-- `*pte = x`, for the `pte` that `walk` returns. -/
def put : {l : Nat} → Tbl l → Nat → Pte → Tbl l
  | 0, pt, va, x => bottom pt.addr (update pt.entry (px 0 va) x)
  | l + 1, pt, va, x =>
    match pt.child (px (l + 1) va) with
    | none => pt
    | some c => node pt.addr (update pt.child (px (l + 1) va) (some (c.put va x)))

/-- The pages of the tree. -/
def tables : {l : Nat} → Tbl l → Multiset Nat
  | 0, pt => {pt.addr}
  | _ + 1, pt => pt.addr ::ₘ ∑ i, ((pt.child i).elim 0 fun c => c.tables)

end Tbl

/-! ## Addresses that share an entry -/

def Same (l va vb : Nat) : Prop := ∀ j ≤ l, px j va = px j vb

variable {va vb : Nat}

theorem same_succ : Same (l + 1) va vb ↔ px (l + 1) va = px (l + 1) vb ∧ Same l va vb := by
  constructor
  · intro h
    exact ⟨h _ le_rfl, fun j hj => h j (by omega)⟩
  · rintro ⟨h, hs⟩ j hj
    rcases Nat.lt_or_ge l j with hlt | hle
    · obtain rfl : j = l + 1 := by omega
      exact h
    · exact hs j hle

/-- In three levels: the same page. -/
theorem same_iff (ha : va < 2 ^ 39) (hb : vb < 2 ^ 39) :
    Same 2 va vb ↔ va / PGSIZE = vb / PGSIZE := by
  constructor
  · intro h
    have h₀ := congrArg Fin.val (h 0 (by omega))
    have h₁ := congrArg Fin.val (h 1 (by omega))
    have h₂ := congrArg Fin.val (h 2 (by omega))
    simp only [px, Nat.reducePow, Nat.reduceMul, Nat.reduceAdd] at h₀ h₁ h₂
    show va / 4096 = vb / 4096
    omega
  · intro h j hj
    apply Fin.ext
    simp only [px]
    have hd : ∀ v : Nat, v / 2 ^ (12 + 9 * j) = v / PGSIZE / 2 ^ (9 * j) := fun v => by
      rw [pow_add, Nat.div_div_eq_div_mul]; rfl
    rw [hd va, hd vb, h]

/-! ## `put` -/

namespace Tbl

variable {l : Nat}

theorem leaf_put (pt : Tbl l) (va vb : Nat) (x : Pte) (hp : pt.present va = true) :
    (Same l va vb → (pt.put va x).leaf vb = x) ∧
      (¬ Same l va vb → (pt.put va x).leaf vb = pt.leaf vb) := by
  induction l with
  | zero =>
    have hs : Same 0 va vb ↔ px 0 va = px 0 vb :=
      ⟨fun h => h 0 le_rfl, fun h j hj => by obtain rfl : j = 0 := by omega
                                             exact h⟩
    rw [hs]
    refine ⟨fun h => ?_, fun h => ?_⟩
    · simp only [put, leaf, entry_bottom, h, update_self]
    · simp only [put, leaf, entry_bottom, update_of_ne (Ne.symm h)]
  | succ l ih =>
    cases hc : pt.child (px (l + 1) va) with
    | none => simp [present, hc] at hp
    | some c =>
      have hcp : c.present va = true := by simpa [present, hc] using hp
      rw [same_succ]
      by_cases hi : px (l + 1) va = px (l + 1) vb
      · have hleaf : pt.leaf vb = c.leaf vb := by
          simp only [leaf, ← hi, hc]
        have hnew : (pt.put va x).leaf vb = (c.put va x).leaf vb := by
          simp only [put, hc, leaf, ← hi, child_node, update_self]
        rw [hnew, hleaf]
        exact ⟨fun h => (ih c hcp).1 h.2, fun h => (ih c hcp).2 fun hs => h ⟨hi, hs⟩⟩
      · refine ⟨fun h => absurd h.1 hi, fun _ => ?_⟩
        simp only [put, hc, leaf, child_node, update_of_ne (Ne.symm hi)]

theorem tables_put (pt : Tbl l) (va : Nat) (x : Pte) : (pt.put va x).tables = pt.tables := by
  induction l with
  | zero => rfl
  | succ l ih =>
    cases hc : pt.child (px (l + 1) va) with
    | none => simp only [put, hc]
    | some c =>
      have hsum := sum_update_add (fun o : Option (Tbl l) => o.elim 0 fun c => c.tables)
        pt.child (px (l + 1) va) (some (c.put va x))
      simp only [hc, Option.elim_some, ih] at hsum
      simp only [put, hc, tables, child_node, addr_node]
      rw [add_right_cancel hsum]

theorem addr_mem_tables (pt : Tbl l) : pt.addr ∈ pt.tables := by
  cases l with
  | zero => exact mem_singleton_self _
  | succ l =>
    simp only [tables, mem_cons, true_or]

/-- An entry that is valid is there. -/
theorem present_of_leaf {pt : Tbl l} (h : (pt.leaf va).v = true) : pt.present va = true := by
  induction l with
  | zero => rfl
  | succ l ih =>
    cases hc : pt.child (px (l + 1) va) with
    | none => simp [leaf, hc, Pte.zero] at h
    | some c =>
      simp only [leaf, hc] at h
      simp only [present, hc]
      exact ih h

theorem leaf_fresh (l pa va : Nat) : (fresh l pa).leaf va = Pte.zero := by
  cases l with
  | zero => rfl
  | succ l => rfl

theorem tables_fresh (l pa : Nat) : (fresh l pa).tables = {pa} := by
  cases l with
  | zero => rfl
  | succ l => simp [tables, fresh]

theorem leaf_congr (pt : Tbl l) (h : Same l va vb) : pt.leaf va = pt.leaf vb := by
  induction l with
  | zero => simp only [leaf, h 0 le_rfl]
  | succ l ih =>
    obtain ⟨hi, hs⟩ := same_succ.mp h
    simp only [leaf, hi]
    cases pt.child (px (l + 1) vb) with
    | none => rfl
    | some c => exact ih c hs

/-- Every entry of a table is the entry for some address. -/
theorem exists_px (l va : Nat) (i : Fin 512) : ∃ vb, px (l + 1) vb = i ∧ Same l vb va := by
  refine ⟨va % 2 ^ (12 + 9 * (l + 1)) + 2 ^ (12 + 9 * (l + 1)) * i, ?_, fun j hj => ?_⟩
  · apply Fin.ext
    simp only [px]
    have hpos := Nat.two_pow_pos (12 + 9 * (l + 1))
    rw [Nat.add_mul_div_left _ _ hpos, Nat.div_eq_of_lt (Nat.mod_lt _ hpos), Nat.zero_add,
      Nat.mod_eq_of_lt i.isLt]
  · apply Fin.ext
    simp only [px]
    obtain ⟨d, hd⟩ : ∃ d, 9 * (l + 1) = 9 * j + 9 + d := ⟨9 * (l + 1) - (9 * j + 9), by omega⟩
    have hpow : 2 ^ (12 + 9 * (l + 1)) = 2 ^ (12 + 9 * j) * 512 * 2 ^ d := by
      rw [hd, show 12 + (9 * j + 9 + d) = (12 + 9 * j) + 9 + d by omega, pow_add, pow_add,
        show (2 : Nat) ^ 9 = 512 from rfl]
    rw [hpow, mul_assoc, mul_assoc, Nat.add_mul_div_left _ _ (Nat.two_pow_pos _),
      Nat.mod_mul_right_div_self, mul_assoc, Nat.add_mul_mod_self_left,
      Nat.mod_mul_right_mod]

end Tbl

/-! ## The pages of a tree -/

theorem tables_bottom (pt : Tbl 0) : pt.tables = {pt.addr} := rfl

theorem tables_node (pt : Tbl (l + 1)) :
    pt.tables = pt.addr ::ₘ ∑ i, ((pt.child i).elim 0 fun c => c.tables) := rfl

theorem tables_update (pt : Tbl (l + 1)) (i : Fin 512) (c : Tbl l) :
    (Tbl.node pt.addr (update pt.child i (some c))).tables
      + (pt.child i).elim 0 (fun c => c.tables) = c.tables + pt.tables := by
  have hsum := sum_update_add (fun o : Option (Tbl l) => o.elim 0 fun c => c.tables) pt.child i
    (some c)
  simp only [Option.elim_some] at hsum
  simp only [Tbl.tables, Tbl.addr_node, Tbl.child_node]
  rw [cons_add, hsum, add_cons, add_comm c.tables]

theorem tables_child {pt : Tbl (l + 1)} {i : Fin 512} {c : Tbl l}
    (hc : pt.child i = some c) : ∃ R, pt.tables = c.tables + R := by
  have h := Finset.add_sum_erase Finset.univ
    (fun i => (pt.child i).elim 0 fun c => c.tables) (Finset.mem_univ i)
  simp only [hc, Option.elim_some] at h
  refine ⟨pt.addr ::ₘ ∑ i ∈ Finset.univ.erase i, (pt.child i).elim 0 fun c => c.tables, ?_⟩
  rw [add_cons, h]
  rfl

attribute [irreducible] Tbl.tables

/-! ## Page by page -/

/-- How many pages the three levels can map. -/
abbrev VPAGES : Nat := 2 ^ 27

/-- The entry of each page of the virtual address space. -/
def Tbl.map (pt : Pgtbl) (n : Nat) : Pte := if n < VPAGES then pt.leaf (n * PGSIZE) else Pte.zero

namespace Tbl

variable {n : Nat}

theorem map_eq (pt : Pgtbl) (h : n < VPAGES) : pt.map n = pt.leaf (n * PGSIZE) := if_pos h

theorem same_page {m : Nat} (hn : n < VPAGES) (hm : m < VPAGES) :
    Same 2 (n * PGSIZE) (m * PGSIZE) ↔ n = m := by
  simp only [VPAGES, PGSIZE] at *
  rw [same_iff (by omega) (by omega)]
  show n * 4096 / 4096 = m * 4096 / 4096 ↔ n = m
  omega

variable {pt : Pgtbl}

theorem map_put (hn : n < VPAGES) (x : Pte) (hp : pt.present (n * PGSIZE) = true) :
    (pt.put (n * PGSIZE) x).map = update pt.map n x := by
  funext m
  by_cases hm : m < VPAGES
  · rw [map_eq _ hm]
    obtain ⟨hsame, hdiff⟩ := leaf_put pt (n * PGSIZE) (m * PGSIZE) x hp
    by_cases h : m = n
    · subst h
      rw [update_self]
      exact hsame ((same_page hn hm).mpr rfl)
    · rw [update_of_ne h, map_eq _ hm]
      exact hdiff fun hs => h ((same_page hn hm).mp hs).symm
  · have h : m ≠ n := fun h => hm (h ▸ hn)
    rw [update_of_ne h]
    simp only [map, if_neg hm]

theorem map_fresh (pa : Nat) : (fresh 2 pa).map = fun _ => Pte.zero := by
  funext n
  unfold map
  split
  · exact leaf_fresh 2 pa _
  · rfl

/-- Nothing mapped, nothing anywhere. -/
theorem leaf_of_map (h : ∀ n, (pt.map n).v = false) (va : Nat) : (pt.leaf va).v = false := by
  have hmod : va % 2 ^ 39 / PGSIZE < VPAGES := by
    simp only [VPAGES, PGSIZE]; omega
  have hs : Same 2 va (va % 2 ^ 39 / PGSIZE * PGSIZE) := by
    intro j hj
    apply Fin.ext
    simp only [px, PGSIZE]
    have : j = 0 ∨ j = 1 ∨ j = 2 := by omega
    rcases this with rfl | rfl | rfl <;>
      simp only [Nat.reducePow, Nat.reduceMul, Nat.reduceAdd] <;> omega
  have := h (va % 2 ^ 39 / PGSIZE)
  rwa [map_eq _ hmod, ← leaf_congr pt hs] at this

end Tbl

/-! ## Mapped pages -/

/-- The pages mapped at `n`, ..., `n + c - 1`. -/
def frames (f : Nat → Pte) : Nat → Nat → Multiset Nat
  | _, 0 => 0
  | n, c + 1 => (f n).pa ::ₘ frames f (n + 1) c

theorem frames_congr {f g : Nat → Pte} : ∀ {n c : Nat},
    (∀ i, n ≤ i → i < n + c → (f i).pa = (g i).pa) → frames f n c = frames g n c
  | _, 0, _ => rfl
  | n, c + 1, h => by
    rw [frames, frames, h n le_rfl (by omega),
      frames_congr fun i hi hc => h i (by omega) (by omega)]

theorem frames_add (f : Nat → Pte) : ∀ (n c d : Nat),
    frames f n (c + d) = frames f n c + frames f (n + c) d
  | n, 0, d => by simp [frames]
  | n, c + 1, d => by
    rw [show c + 1 + d = (c + d) + 1 by omega, frames, frames, frames_add f (n + 1) c d,
      cons_add, show n + 1 + c = n + (c + 1) by omega]

theorem mem_frames {f : Nat → Pte} : ∀ {n c i : Nat}, n ≤ i → i < n + c →
    (f i).pa ∈ frames f n c
  | n, 0, i, h, h' => by omega
  | n, c + 1, i, h, h' => by
    rcases Nat.eq_or_lt_of_le h with rfl | h
    · exact mem_cons_self _ _
    · exact mem_cons_of_mem (mem_frames h (by omega))

theorem frames_inj {f : Nat → Pte} : ∀ {n c i j : Nat}, (frames f n c).Nodup → n ≤ i → i < n + c →
    n ≤ j → j < n + c → (f i).pa = (f j).pa → i = j
  | n, 0, i, j, _, h1, h2, _, _, _ => by omega
  | n, c + 1, i, j, hnd, h1, h2, h3, h4, he => by
    rw [frames, nodup_cons] at hnd
    rcases Nat.eq_or_lt_of_le h1 with rfl | h1 <;> rcases Nat.eq_or_lt_of_le h3 with rfl | h3
    · rfl
    · exact absurd (he ▸ mem_frames h3 (by omega)) hnd.1
    · exact absurd (he ▸ mem_frames h1 (by omega)) hnd.1
    · exact frames_inj hnd.2 h1 (by omega) h3 (by omega) he

theorem card_frames (f : Nat → Pte) : ∀ n c : Nat, (frames f n c).card = c
  | _, 0 => rfl
  | n, c + 1 => by rw [frames, card_cons, card_frames f (n + 1) c]

/-- The entries `n`, ..., `n + c - 1` zeroed. -/
def clear (f : Nat → Pte) (n c : Nat) : Nat → Pte :=
  fun i => if n ≤ i ∧ i < n + c then Pte.zero else f i

theorem clear_zero (f : Nat → Pte) (n : Nat) : clear f n 0 = f := by
  funext i
  unfold clear
  rw [if_neg (by omega)]

theorem clear_succ (f : Nat → Pte) (n c : Nat) :
    clear (update f n Pte.zero) (n + 1) c = clear f n (c + 1) := by
  funext i
  unfold clear
  by_cases hi : i = n
  · subst hi
    rw [if_neg (by omega), if_pos (by omega), update_self]
  · rw [update_of_ne hi]
    by_cases h : n + 1 ≤ i ∧ i < n + 1 + c
    · rw [if_pos h, if_pos (by omega)]
    · rw [if_neg h, if_neg (by omega)]

end Xv6.Mem
