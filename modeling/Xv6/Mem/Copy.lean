/-
# `Xv6.Mem.Copy` — `copyout`, `copyin` and `copyinstr` with the bytes they copy

`Xv6.Mem.Vm` has of `copyout` whether it succeeds; here are the three functions on
physical memory, with `walk` and its panic.  The other side of a copy is a buffer of
the kernel: the bytes given, or the bytes stored so far.  A loop takes a byte at
least in every round, so it has as many rounds as bytes.
-/
import Xv6.Lib.Memory
import Xv6.Mem.Vm

namespace Xv6.Vm

open Machine Xv6.Mem List

/-- Physical memory. -/
abbrev Phys := Nat → UInt8

/-! ## The code -/

/-- `walk(pagetable, va, 0)`, with the entry it points to. -/
def walk (pt : Pgtbl) (va : Nat) : Except String (Option Pte) := if MAXVA ≤ va then .error "walk"
  else .ok (if pt.present va then some (pt.leaf va) else none)

variable (pt : Pgtbl)

def walkaddr (va : Nat) : Except String Nat := if MAXVA ≤ va then .ok 0
  else do
    match ← walk pt va with
    | none => .ok 0
    | some pte =>
      if pte.v = false then .ok 0
      else if pte.u = false then .ok 0
      else .ok pte.pa

/-- `memmove(dst, src, n)` from a buffer of the kernel. -/
def memmove (dst : Nat) (src : List UInt8) (m : Phys) : Phys := poke id dst src m

/-- How much of the range from `va` on a round takes. -/
def chunk (va len : Nat) : Nat := let n := PGSIZE - (va - PGROUNDDOWN va)
  if n > len then len else n

/-- Where the next round begins. -/
def nextPage (va : Nat) : Nat := (PGROUNDDOWN va + PGSIZE) % 2 ^ 64

def copyoutFrom (pt : Pgtbl) : Nat → Nat → List UInt8 → Phys → Except String (Bool × Phys)
  | 0, _, src, m => .ok (src.isEmpty, m)
  | rounds + 1, dstva, src, m =>
    if src.length = 0 then .ok (true, m)
    else
      let va0 := PGROUNDDOWN dstva
      if MAXVA ≤ va0 then .ok (false, m)
      else do
        match ← walk pt va0 with
        | none => .ok (false, m)
        | some pte =>
          if pte.v = false ∨ pte.u = false ∨ pte.w = false then .ok (false, m)
          else
            let n := chunk dstva src.length
            copyoutFrom pt rounds (nextPage dstva) (src.drop n)
              (memmove (pte.pa + (dstva - va0)) (src.take n) m)

/-- `true` for a return value of 0, and the memory. -/
def copyout (dstva : Nat) (src : List UInt8) (m : Phys) : Except String (Bool × Phys) :=
  copyoutFrom pt src.length dstva src m

def copyinFrom (pt : Pgtbl) (m : Phys) :
    Nat → List UInt8 → Nat → Nat → Except String (Bool × List UInt8)
  | 0, dst, _, len => .ok (len == 0, dst)
  | rounds + 1, dst, srcva, len =>
    if len = 0 then .ok (true, dst)
    else do
      let va0 := PGROUNDDOWN srcva
      let pa0 ← walkaddr pt va0
      if pa0 = 0 then .ok (false, dst)
      else
        let n := chunk srcva len
        copyinFrom pt m rounds (dst ++ peek id (pa0 + (srcva - va0)) n m) (nextPage srcva) (len - n)

/-- `true` for a return value of 0, and the bytes stored from `dst` on. -/
def copyin (m : Phys) (srcva len : Nat) : Except String (Bool × List UInt8) :=
  copyinFrom pt m len [] srcva len

/-- The inner loop of `copyinstr` at `p`: whether it has met a NUL, and what it stored. -/
def copyChars (m : Phys) : Nat → Nat → Bool × List UInt8
  | 0, _ => (false, [])
  | n + 1, p =>
    if m p = 0 then (true, [0])
    else
      let (gotNull, dst) := copyChars m n (p + 1)
      (gotNull, m p :: dst)

def copyinstrFrom (pt : Pgtbl) (m : Phys) :
    Nat → List UInt8 → Nat → Nat → Except String (Bool × List UInt8)
  | 0, dst, _, _ => .ok (false, dst)
  | rounds + 1, dst, srcva, max =>
    if max = 0 then .ok (false, dst)
    else do
      let va0 := PGROUNDDOWN srcva
      let pa0 ← walkaddr pt va0
      if pa0 = 0 then .ok (false, dst)
      else
        let n := chunk srcva max
        let (gotNull, new) := copyChars m n (pa0 + (srcva - va0))
        if gotNull then .ok (true, dst ++ new)
        else copyinstrFrom pt m rounds (dst ++ new) (nextPage srcva) (max - n)

/-- `true` for a return value of 0, and the bytes stored from `dst` on. -/
def copyinstr (m : Phys) (srcva max : Nat) : Except String (Bool × List UInt8) :=
  copyinstrFrom pt m max [] srcva max

/-! ## What the page table allows -/

/-- The page of `va` lies below `MAXVA`, is valid and may be accessed by the user. -/
structure User (va : Nat) : Prop where
  low : va < MAXVA
  present : pt.present va = true
  v : (pt.leaf va).v = true
  u : (pt.leaf va).u = true

structure Writable (va : Nat) : Prop extends User pt va where
  w : (pt.leaf va).w = true

/-- The physical address of `va`. -/
def phys (va : Nat) : Nat := (pt.leaf va).pa + va % PGSIZE

variable {pt : Pgtbl} {m : Phys} {va vb len : Nat} {n srcva max k j : Nat}

theorem same_of_page (h : va / PGSIZE = vb / PGSIZE) : Same 2 va vb := by
  intro j hj
  apply Fin.ext
  have h : va / 4096 = vb / 4096 := h
  simp only [px]
  have : j = 0 ∨ j = 1 ∨ j = 2 := by omega
  rcases this with rfl | rfl | rfl <;>
    simp only [Nat.reducePow, Nat.reduceMul, Nat.reduceAdd] <;> omega

theorem present_congr : ∀ {l : Nat} (pt : Tbl l) {va vb : Nat}, Same l va vb →
    pt.present va = pt.present vb
  | 0, _, _, _, _ => rfl
  | l + 1, pt, va, vb, h => by
    obtain ⟨hi, hs⟩ := same_succ.mp h
    simp only [Tbl.present, hi]
    cases pt.child (px (l + 1) vb) with
    | none => rfl
    | some c => exact present_congr c hs

/-- Whether the user may access an address depends on its page. -/
theorem User.congr (h : va / PGSIZE = vb / PGSIZE) (hu : User pt va) : User pt vb := by
  have hs := same_of_page h
  refine ⟨?_, ?_, ?_, ?_⟩
  · have hlow : va < 274877906944 := hu.low
    have h : va / 4096 = vb / 4096 := h
    show vb < 274877906944
    omega
  · rw [← present_congr pt hs]
    exact hu.present
  · rw [← Tbl.leaf_congr pt hs]
    exact hu.v
  · rw [← Tbl.leaf_congr pt hs]
    exact hu.u

theorem Writable.congr (h : va / PGSIZE = vb / PGSIZE) (hw : Writable pt va) : Writable pt vb :=
  ⟨hw.toUser.congr h, by rw [← Tbl.leaf_congr pt (same_of_page h)]; exact hw.w⟩

theorem chunk_eq (va len : Nat) : chunk va len = min (4096 - va % 4096) len := by
  have hoff : va - PGROUNDDOWN va = va % 4096 := by
    show va - va / 4096 * 4096 = va % 4096
    omega
  simp only [chunk, hoff]
  show (if 4096 - va % 4096 > len then len else 4096 - va % 4096) = _
  split <;> omega

/-- A round stays in the page, and the next one begins where it ends. -/
theorem chunk_spec (va : Nat) (hlen : 0 < len) : 0 < chunk va len ∧ chunk va len ≤ len ∧
    (∀ i < chunk va len, (va + i) / PGSIZE = va / PGSIZE ∧ (va + i) % PGSIZE = va % PGSIZE + i) ∧
    (va < MAXVA → chunk va len = len ∨ nextPage va = va + chunk va len) := by
  simp only [chunk_eq, nextPage, PGROUNDDOWN, PGSIZE, MAXVA]
  exact ⟨by omega, by omega, fun i hi => by omega, by omega⟩

theorem rounddown_spec (va : Nat) : va - PGROUNDDOWN va = va % PGSIZE ∧
    PGROUNDDOWN va / PGSIZE = va / PGSIZE ∧ (MAXVA ≤ PGROUNDDOWN va ↔ MAXVA ≤ va) := by
  simp only [PGROUNDDOWN, PGSIZE, MAXVA]
  omega

theorem same_rounddown (va : Nat) : Same 2 (PGROUNDDOWN va) va :=
  same_of_page (rounddown_spec va).2.1

/-- The bytes of one page are consecutive. -/
theorem phys_chunk (hlen : 0 < len) {i : Nat} (hi : i < chunk va len) :
    phys pt (va + i) = (pt.leaf va).pa + (va - PGROUNDDOWN va) + i := by
  obtain ⟨-, -, hpage, -⟩ := chunk_spec va hlen
  rw [phys, (hpage i hi).2, (rounddown_spec va).1, Tbl.leaf_congr pt (same_of_page (hpage i hi).1)]
  omega

theorem walk_rounddown (h : ¬ MAXVA ≤ va) : walk pt (PGROUNDDOWN va) =
    .ok (if pt.present va then some (pt.leaf va) else none) := by
  rw [walk, if_neg (mt (rounddown_spec va).2.2.mp h), present_congr pt (same_rounddown va),
    Tbl.leaf_congr pt (same_rounddown va)]

/-- What `walkaddr` says of the page of an address. -/
theorem walkaddr_eq (pt : Pgtbl) (va : Nat) : ∃ pa0, walkaddr pt (PGROUNDDOWN va) = .ok pa0 ∧
    (User pt va → pa0 = (pt.leaf va).pa) ∧ (¬ User pt va → pa0 = 0) := by
  have hlow := (rounddown_spec va).2.2
  rw [walkaddr]
  by_cases h1 : MAXVA ≤ va
  · rw [if_pos (hlow.mpr h1)]
    exact ⟨0, rfl, fun hu => absurd h1 (Nat.not_le.mpr hu.low), fun _ => rfl⟩
  rw [if_neg (mt hlow.mp h1), walk_rounddown h1]
  by_cases h2 : pt.present va = true
  swap
  · rw [if_neg h2]
    exact ⟨0, rfl, fun hu => absurd hu.present h2, fun _ => rfl⟩
  rw [if_pos h2]
  show ∃ pa0, (if (pt.leaf va).v = false then _ else _) = _ ∧ _
  by_cases h3 : (pt.leaf va).v = false
  · rw [if_pos h3]
    exact ⟨0, rfl, fun hu => absurd (hu.v.symm.trans h3) (by decide), fun _ => rfl⟩
  rw [if_neg h3]
  by_cases h4 : (pt.leaf va).u = false
  · rw [if_pos h4]
    exact ⟨0, rfl, fun hu => absurd (hu.u.symm.trans h4) (by decide), fun _ => rfl⟩
  rw [if_neg h4]
  refine ⟨_, rfl, fun _ => rfl, fun hno => absurd ?_ hno⟩
  exact ⟨Nat.not_le.mp h1, h2, by simpa using h3, by simpa using h4⟩

/-! ## `copyout` -/

section

variable {rounds : Nat} {src : List UInt8}

theorem copyoutFrom_stop (h0 : src.length ≠ 0) (hno : ¬ Writable pt va) :
    copyoutFrom pt (rounds + 1) va src m = .ok (false, m) := by
  have hlow := (rounddown_spec va).2.2
  rw [copyoutFrom, if_neg h0]
  by_cases h1 : MAXVA ≤ va
  · exact if_pos (hlow.mpr h1)
  simp only [if_neg (mt hlow.mp h1), walk_rounddown h1]
  by_cases h2 : pt.present va = true
  swap
  · rw [if_neg h2]
    rfl
  rw [if_pos h2]
  refine if_pos ?_
  by_contra hbits
  simp only [not_or, Bool.not_eq_false] at hbits
  exact hno ⟨⟨Nat.not_le.mp h1, h2, hbits.1, hbits.2.1⟩, hbits.2.2⟩

theorem copyoutFrom_go (h0 : src.length ≠ 0) (hw : Writable pt va) :
    copyoutFrom pt (rounds + 1) va src m =
      copyoutFrom pt rounds (nextPage va) (src.drop (chunk va src.length))
        (poke (phys pt) va (src.take (chunk va src.length)) m) := by
  have hlow := (rounddown_spec va).2.2
  have hnot : ¬ MAXVA ≤ va := Nat.not_le.mpr hw.low
  have hbits : ¬ ((pt.leaf va).v = false ∨ (pt.leaf va).u = false ∨ (pt.leaf va).w = false) := by
    rw [hw.v, hw.u, hw.w]
    decide
  have hpoke : memmove ((pt.leaf va).pa + (va - PGROUNDDOWN va))
      (src.take (chunk va src.length)) m = poke (phys pt) va (src.take (chunk va src.length)) m := by
    refine poke_congr _ _ fun i hi => ?_
    rw [length_take] at hi
    exact (phys_chunk (Nat.pos_of_ne_zero h0) (by omega)).symm
  rw [copyoutFrom, if_neg h0, ← hpoke]
  simp only [if_neg (mt hlow.mp hnot), walk_rounddown hnot, if_pos hw.present]
  exact if_neg hbits

end

/-- What holds of the first `n` addresses and of the rest. -/
theorem forall_lt_split {p : Nat → Prop} (hn : n ≤ len) (h : ∀ i < n, p (va + i)) :
    (∀ i < len - n, p (va + n + i)) ↔ ∀ i < len, p (va + i) := by
  constructor
  · intro hrest i hi
    by_cases hin : i < n
    · exact h i hin
    · have := hrest (i - n) (by omega)
      rwa [show va + n + (i - n) = va + i by omega] at this
  · intro hall i hi
    have := hall (n + i) (by omega)
    rwa [← Nat.add_assoc] at this

/-- Of the range from `va` on the first `k` addresses are copied: those before the first
that does not satisfy `P`, or some of them;  `ok` says that it was all. -/
structure Copied (P : Nat → Prop) (va len : Nat) (ok : Bool) (k : Nat) : Prop where
  le : k ≤ len
  may : ∀ i < k, P (va + i)
  iff : ok = true ↔ ∀ i < len, P (va + i)
  all : ok = true → k = len

section
variable {P : Nat → Prop} {ok : Bool}

theorem Copied.nothing (h0 : len = 0) : Copied P va len true 0 :=
  ⟨Nat.zero_le _, fun i hi => by omega, ⟨fun _ i hi => by omega, fun _ => rfl⟩, fun _ => h0.symm⟩

theorem Copied.refused (h0 : len ≠ 0) (hP : ¬ P va) : Copied P va len false 0 :=
  ⟨Nat.zero_le _, fun i hi => by omega,
    ⟨nofun, fun h => absurd (h 0 (Nat.pos_of_ne_zero h0)) hP⟩, nofun⟩

/-- A round, and then the rest, if there is any. -/
theorem Copied.round (hn : n ≤ len) (hthis : ∀ i < n, P (va + i))
    (hnext : n = len ∨ vb = va + n) (h : Copied P vb (len - n) ok k) :
    Copied P va len ok (n + k) ∧ (k = 0 ∨ vb = va + n) := by
  obtain ⟨hk, hmay, hiff, hall⟩ := h
  rcases hnext with rfl | rfl
  · obtain rfl : k = 0 := by omega
    have hok : ok = true := hiff.mpr fun i hi => by omega
    exact ⟨⟨le_rfl, hthis, ⟨fun _ => hthis, fun _ => hok⟩, fun _ => rfl⟩, .inl rfl⟩
  · refine ⟨⟨by omega, ?_, ?_, fun h => by have := hall h; omega⟩, .inr rfl⟩
    · exact (forall_lt_split (Nat.le_add_right n k) hthis).mp (by rwa [Nat.add_sub_cancel_left])
    · exact hiff.trans (forall_lt_split hn hthis)

end

/-- `copyout` stores a first part of the bytes, and all of them exactly if every page
of the range may be written. -/
theorem copyoutFrom_spec (pt : Pgtbl) : ∀ (rounds dstva : Nat) (src : List UInt8) (m : Phys),
    src.length ≤ rounds → ∃ ok k, copyoutFrom pt rounds dstva src m =
        .ok (ok, poke (phys pt) dstva (src.take k) m) ∧ Copied (Writable pt) dstva src.length ok k
  | 0, dstva, src, m, hlen => by
    obtain rfl : src = [] := length_eq_zero_iff.mp (by omega)
    exact ⟨true, 0, rfl, .nothing rfl⟩
  | rounds + 1, dstva, src, m, hlen => by
    by_cases h0 : src.length = 0
    · rw [copyoutFrom, if_pos h0]
      exact ⟨true, 0, rfl, .nothing h0⟩
    by_cases hw : Writable pt dstva
    swap
    · rw [copyoutFrom_stop h0 hw]
      exact ⟨false, 0, rfl, .refused h0 hw⟩
    rw [copyoutFrom_go h0 hw]
    obtain ⟨hn, hnle, hpage, hnext⟩ := chunk_spec dstva (Nat.pos_of_ne_zero h0)
    generalize chunk dstva src.length = n at hn hnle hpage hnext ⊢
    obtain ⟨ok, k, heq, hrest⟩ := copyoutFrom_spec pt rounds (nextPage dstva) (src.drop n)
      (poke (phys pt) dstva (src.take n) m) (by rw [length_drop]; omega)
    rw [length_drop] at hrest
    obtain ⟨hc, hnext⟩ := hrest.round hnle (fun i hi => hw.congr (hpage i hi).1.symm) (hnext hw.low)
    refine ⟨ok, n + k, ?_, hc⟩
    rw [heq]
    rcases hnext with rfl | hnext
    · rw [take_zero, poke, Nat.add_zero]
    · rw [take_add, poke_append, length_take, Nat.min_eq_left hnle, hnext]

theorem copyout_spec (pt : Pgtbl) (m : Phys) (dstva : Nat) (src : List UInt8) :
    ∃ ok k, copyout pt dstva src m = .ok (ok, poke (phys pt) dstva (src.take k) m) ∧
      Copied (Writable pt) dstva src.length ok k :=
  copyoutFrom_spec pt src.length dstva src m le_rfl

/-- Without the bytes, `copyout` is that of `Xv6.Mem.Vm`. -/
theorem copyoutFrom_fst : ∀ (rounds dstva : Nat) (src : List UInt8) (m : Phys),
    (copyoutFrom pt rounds dstva src m).map Prod.fst = .ok (Mem.copyoutFrom pt rounds dstva src.length)
  | 0, _, src, _ => by cases src <;> rfl
  | rounds + 1, dstva, src, m => by
    by_cases h0 : src.length = 0
    · rw [copyoutFrom, Mem.copyoutFrom, if_pos h0, if_pos h0]
      rfl
    have hlow := (rounddown_spec dstva).2.2
    have hsame := same_rounddown dstva
    rw [Mem.copyoutFrom, if_neg h0]
    simp only [present_congr pt hsame, Tbl.leaf_congr pt hsame]
    by_cases hw : Writable pt dstva
    · have hnot : ¬ MAXVA ≤ PGROUNDDOWN dstva := mt hlow.mp (Nat.not_le.mpr hw.low)
      have hbits : ¬ (pt.present dstva = false ∨ (pt.leaf dstva).v = false ∨
          (pt.leaf dstva).u = false ∨ (pt.leaf dstva).w = false) := by
        rw [hw.present, hw.v, hw.u, hw.w]
        decide
      have hnext : nextPage dstva = PGROUNDDOWN dstva + PGSIZE := by
        have hlow : dstva < 274877906944 := hw.low
        show (dstva / 4096 * 4096 + 4096) % 18446744073709551616 = dstva / 4096 * 4096 + 4096
        omega
      rw [copyoutFrom_go h0 hw, copyoutFrom_fst rounds, if_neg hnot, if_neg hbits, hnext,
        length_drop]
      rfl
    · rw [copyoutFrom_stop h0 hw]
      by_cases h1 : MAXVA ≤ dstva
      · rw [if_pos (hlow.mpr h1)]
        rfl
      rw [if_neg (mt hlow.mp h1), if_pos]
      · rfl
      by_contra hbits
      simp only [not_or, Bool.not_eq_false] at hbits
      exact hw ⟨⟨Nat.not_le.mp h1, hbits.1, hbits.2.1, hbits.2.2.1⟩, hbits.2.2.2⟩

theorem copyout_fst (pt : Pgtbl) (dstva : Nat) (src : List UInt8) (m : Phys) :
    (copyout pt dstva src m).map Prod.fst = .ok (Mem.copyout pt dstva src.length) :=
  copyoutFrom_fst src.length dstva src m

/-! ## `copyin` and `copyinstr` -/

/-- No user page is at physical address 0, which `walkaddr` returns for no page. -/
def NoPageZero (pt : Pgtbl) : Prop := ∀ va, User pt va → (pt.leaf va).pa ≠ 0

section

variable {rounds : Nat} {dst : List UInt8}

/-- The bytes of a round. -/
theorem peek_chunk (h0 : len ≠ 0) :
    peek id ((pt.leaf va).pa + (va - PGROUNDDOWN va)) (chunk va len) m =
      peek (phys pt) va (chunk va len) m :=
  peek_congr fun i hi => by rw [phys_chunk (Nat.pos_of_ne_zero h0) hi]; rfl

theorem copyinFrom_stop (h0 : len ≠ 0) (hno : ¬ User pt va) :
    copyinFrom pt m (rounds + 1) dst va len = .ok (false, dst) := by
  obtain ⟨pa0, hwalk, -, hzero⟩ := walkaddr_eq pt va
  rw [copyinFrom, if_neg h0]
  simp only [hwalk]
  exact if_pos (hzero hno)

theorem copyinFrom_go (h0 : len ≠ 0) (hu : User pt va) (hz : NoPageZero pt) :
    copyinFrom pt m (rounds + 1) dst va len =
      copyinFrom pt m rounds (dst ++ peek (phys pt) va (chunk va len) m) (nextPage va)
        (len - chunk va len) := by
  obtain ⟨pa0, hwalk, hpa, -⟩ := walkaddr_eq pt va
  rw [copyinFrom, if_neg h0, ← peek_chunk h0]
  simp only [hwalk, hpa hu]
  exact if_neg (hz va hu)

theorem copyinstrFrom_stop (h0 : len ≠ 0) (hno : ¬ User pt va) :
    copyinstrFrom pt m (rounds + 1) dst va len = .ok (false, dst) := by
  obtain ⟨pa0, hwalk, -, hzero⟩ := walkaddr_eq pt va
  rw [copyinstrFrom, if_neg h0]
  simp only [hwalk]
  exact if_pos (hzero hno)

end

theorem copyinFrom_spec (hz : NoPageZero pt) : ∀ (rounds : Nat) (dst : List UInt8) (srcva len : Nat),
    len ≤ rounds → ∃ ok k, copyinFrom pt m rounds dst srcva len =
        .ok (ok, dst ++ peek (phys pt) srcva k m) ∧ Copied (User pt) srcva len ok k
  | 0, dst, srcva, len, hlen => by
    obtain rfl : len = 0 := by omega
    exact ⟨true, 0, by simp [copyinFrom, peek], .nothing rfl⟩
  | rounds + 1, dst, srcva, len, hlen => by
    by_cases h0 : len = 0
    · rw [copyinFrom, if_pos h0]
      exact ⟨true, 0, by simp [peek], .nothing h0⟩
    by_cases hu : User pt srcva
    swap
    · rw [copyinFrom_stop h0 hu]
      exact ⟨false, 0, by simp [peek], .refused h0 hu⟩
    rw [copyinFrom_go h0 hu hz]
    obtain ⟨hn, hnle, hpage, hnext⟩ := chunk_spec srcva (Nat.pos_of_ne_zero h0)
    generalize chunk srcva len = n at hn hnle hpage hnext ⊢
    obtain ⟨ok, k, heq, hrest⟩ := copyinFrom_spec hz rounds
      (dst ++ peek (phys pt) srcva n m) (nextPage srcva) (len - n) (by omega)
    obtain ⟨hc, hnext⟩ := hrest.round hnle (fun i hi => hu.congr (hpage i hi).1.symm) (hnext hu.low)
    refine ⟨ok, n + k, ?_, hc⟩
    rw [heq]
    rcases hnext with rfl | hnext
    · simp [peek]
    · rw [peek_add, hnext, append_assoc]

/-- The byte at a user address. -/
def byteAt (pt : Pgtbl) (m : Phys) (va : Nat) : UInt8 := m (phys pt va)

/-- There is a string of at most `max` bytes with its NUL, `j` bytes long, that the
user may read. -/
structure StringAt (pt : Pgtbl) (m : Phys) (srcva max j : Nat) : Prop where
  fits : j < max
  user : ∀ i ≤ j, User pt (srcva + i)
  chars : ∀ i < j, byteAt pt m (srcva + i) ≠ 0
  nul : byteAt pt m (srcva + j) = 0

/-- There is none: the first `k` bytes can be read and are no NUL, and there is
nothing after them. -/
structure NoString (pt : Pgtbl) (m : Phys) (srcva max k : Nat) : Prop where
  fits : k ≤ max
  chars : ∀ i < k, byteAt pt m (srcva + i) ≠ 0
  stop : k = max ∨ ¬ User pt (srcva + k)

theorem NoString.not_stringAt (h : NoString pt m srcva max k) : ¬ StringAt pt m srcva max j := by
  intro hs
  have hkj : k ≤ j := by
    by_contra hlt
    exact h.chars j (by omega) hs.nul
  rcases h.stop with rfl | hno
  · exact absurd hs.fits (by omega)
  · exact hno (hs.user k hkj)

/-- A string that begins with what was read already. -/
theorem StringAt.shift (hn : n ≤ max)
    (hu : ∀ i < n, User pt (srcva + i)) (hc : ∀ i < n, byteAt pt m (srcva + i) ≠ 0)
    (h : StringAt pt m (srcva + n) (max - n) j) : StringAt pt m srcva max (n + j) := by
  have hrest : ∀ i, n ≤ i → srcva + i = srcva + n + (i - n) := fun i hi => by omega
  refine ⟨by have := h.fits; omega, fun i hi => ?_, fun i hi => ?_, ?_⟩
  · by_cases hin : i < n
    · exact hu i hin
    · rw [hrest i (by omega)]
      exact h.user _ (by omega)
  · by_cases hin : i < n
    · exact hc i hin
    · rw [hrest i (by omega)]
      exact h.chars _ (by omega)
  · rw [← Nat.add_assoc]
    exact h.nul

theorem NoString.shift (hn : n ≤ max)
    (hc : ∀ i < n, byteAt pt m (srcva + i) ≠ 0) (h : NoString pt m (srcva + n) (max - n) k) :
    NoString pt m srcva max (n + k) := by
  refine ⟨by have := h.fits; omega, fun i hi => ?_, ?_⟩
  · by_cases hin : i < n
    · exact hc i hin
    · rw [show srcva + i = srcva + n + (i - n) by omega]
      exact h.chars _ (by omega)
  · rcases h.stop with hk | hk
    · exact .inl (by omega)
    · rw [← Nat.add_assoc]
      exact .inr hk

/-- The inner loop stops at the first NUL. -/
theorem copyChars_spec : ∀ (n p : Nat), (∃ j < n, (∀ i < j, m (p + i) ≠ 0) ∧ m (p + j) = 0 ∧
      copyChars m n p = (true, peek id p (j + 1) m)) ∨
    (∀ i < n, m (p + i) ≠ 0) ∧ copyChars m n p = (false, peek id p n m)
  | 0, p => .inr ⟨fun i hi => absurd hi (Nat.not_lt_zero i), rfl⟩
  | n + 1, p => by
    have hcons : ∀ k, peek id p (k + 1) m = m p :: peek id (p + 1) k m := fun k => by
      rw [Nat.add_comm k 1, peek_add]
      rfl
    rw [copyChars]
    by_cases h0 : m p = 0
    · refine .inl ⟨0, Nat.succ_pos n, fun i hi => absurd hi (Nat.not_lt_zero i), h0, ?_⟩
      rw [if_pos h0, hcons, h0]
      rfl
    rw [if_neg h0]
    have hstep : ∀ {k}, (∀ i < k, m (p + 1 + i) ≠ 0) → ∀ i < k + 1, m (p + i) ≠ 0 := by
      intro k h i hi
      cases i with
      | zero => exact h0
      | succ i =>
        rw [show p + (i + 1) = p + 1 + i by omega]
        exact h i (by omega)
    rcases copyChars_spec n (p + 1) with ⟨j, hj, hbefore, hnul, heq⟩ | ⟨hnone, heq⟩
    · refine .inl ⟨j + 1, by omega, hstep hbefore, ?_, by simp only [heq, hcons (j + 1)]⟩
      rwa [show p + (j + 1) = p + 1 + j by omega]
    · exact .inr ⟨hstep hnone, by simp only [heq, hcons n]⟩

/-- A round of `copyinstr`: it ends at a NUL in this page, or goes on behind the page. -/
theorem copyinstrFrom_go (rounds : Nat) (dst : List UInt8) (h0 : len ≠ 0) (hu : User pt va)
    (hz : NoPageZero pt) :
    (∃ j < chunk va len, (∀ i < j, byteAt pt m (va + i) ≠ 0) ∧ byteAt pt m (va + j) = 0 ∧
      copyinstrFrom pt m (rounds + 1) dst va len = .ok (true, dst ++ peek (phys pt) va (j + 1) m)) ∨
    (∀ i < chunk va len, byteAt pt m (va + i) ≠ 0) ∧ copyinstrFrom pt m (rounds + 1) dst va len =
        copyinstrFrom pt m rounds (dst ++ peek (phys pt) va (chunk va len) m) (nextPage va)
          (len - chunk va len) := by
  have hbyte : ∀ i < chunk va len, m ((pt.leaf va).pa + (va - PGROUNDDOWN va) + i) =
      byteAt pt m (va + i) := fun i hi => by
    rw [byteAt, phys_chunk (Nat.pos_of_ne_zero h0) hi]
  have hpeek : ∀ k ≤ chunk va len, peek id ((pt.leaf va).pa + (va - PGROUNDDOWN va)) k m =
      peek (phys pt) va k m := fun k hk => peek_congr fun i hi => hbyte i (by omega)
  obtain ⟨pa0, hwalk, hpa, -⟩ := walkaddr_eq pt va
  rw [copyinstrFrom, if_neg h0]
  simp only [hwalk, hpa hu]
  rcases copyChars_spec (chunk va len) ((pt.leaf va).pa + (va - PGROUNDDOWN va)) with
    ⟨j, hj, hbefore, hnul, heq⟩ | ⟨hnone, heq⟩
  · refine .inl ⟨j, hj, fun i hi => ?_, ?_, ?_⟩
    · rw [← hbyte i (by omega)]
      exact hbefore i hi
    · rwa [← hbyte j hj]
    · refine (if_neg (hz va hu)).trans ?_
      rw [heq, hpeek (j + 1) hj]
      rfl
  · refine .inr ⟨fun i hi => ?_, ?_⟩
    · rw [← hbyte i hi]
      exact hnone i hi
    · refine (if_neg (hz va hu)).trans ?_
      rw [heq, hpeek _ le_rfl]
      rfl

theorem copyinstrFrom_spec (hz : NoPageZero pt) : ∀ (rounds : Nat) (dst : List UInt8)
    (srcva max : Nat), max ≤ rounds →
    (∃ j, StringAt pt m srcva max j ∧ copyinstrFrom pt m rounds dst srcva max =
      .ok (true, dst ++ peek (phys pt) srcva (j + 1) m)) ∨
    (∃ k, NoString pt m srcva max k ∧ copyinstrFrom pt m rounds dst srcva max =
      .ok (false, dst ++ peek (phys pt) srcva k m))
  | 0, dst, srcva, max, hmax => by
    obtain rfl : max = 0 := by omega
    refine .inr ⟨0, ⟨le_rfl, fun i hi => absurd hi (Nat.not_lt_zero i), .inl rfl⟩, ?_⟩
    simp [copyinstrFrom, peek]
  | rounds + 1, dst, srcva, max, hmax => by
    by_cases h0 : max = 0
    · rw [copyinstrFrom, if_pos h0]
      refine .inr ⟨0, ⟨Nat.zero_le _, fun i hi => absurd hi (Nat.not_lt_zero i), ?_⟩, ?_⟩
      · exact .inl h0.symm
      · simp [peek]
    have hpos : 0 < max := Nat.pos_of_ne_zero h0
    by_cases hu : User pt srcva
    swap
    · rw [copyinstrFrom_stop h0 hu]
      refine .inr ⟨0, ⟨Nat.zero_le _, fun i hi => absurd hi (Nat.not_lt_zero i), .inr hu⟩, ?_⟩
      simp [peek]
    obtain ⟨hn, hnle, hpage, hnext⟩ := chunk_spec srcva hpos
    have hthis : ∀ i < chunk srcva max, User pt (srcva + i) := fun i hi =>
      hu.congr (hpage i hi).1.symm
    rcases copyinstrFrom_go rounds dst h0 hu hz with
      ⟨j, hj, hbefore, hnul, heq⟩ | ⟨hchars, heq⟩
    · exact .inl ⟨j, ⟨by omega, fun i hi => hthis i (by omega), hbefore, hnul⟩, heq⟩
    rw [heq]
    generalize chunk srcva max = n at hn hnle hnext hthis hchars ⊢
    have ih := copyinstrFrom_spec hz rounds (dst ++ peek (phys pt) srcva n m) (nextPage srcva)
      (max - n) (by omega)
    rcases hnext hu.low with hend | hnext
    · -- no NUL, and nothing left
      rcases ih with ⟨j, hs, -⟩ | ⟨k, hs, heq⟩
      · exact absurd hs.fits (by omega)
      · obtain rfl : k = 0 := by have := hs.fits; omega
        refine .inr ⟨n, ⟨hnle, hchars, .inl hend⟩, ?_⟩
        rw [heq]
        simp [peek]
    · rw [hnext] at ih ⊢
      rcases ih with ⟨j, hs, heq⟩ | ⟨k, hs, heq⟩
      · refine .inl ⟨n + j, hs.shift hnle hthis hchars, ?_⟩
        rw [heq, show n + j + 1 = n + (j + 1) by omega, peek_add srcva n, append_assoc]
      · refine .inr ⟨n + k, hs.shift hnle hchars, ?_⟩
        rw [heq, peek_add, append_assoc]

theorem copyinstr_spec (hz : NoPageZero pt) (m : Phys) (srcva max : Nat) :
    ∃ ok k, copyinstr pt m srcva max = .ok (ok, peek (phys pt) srcva k m) ∧ k ≤ max ∧
      (ok = true ↔ ∃ j, StringAt pt m srcva max j) ∧
      (ok = true → ∃ j, StringAt pt m srcva max j ∧ k = j + 1) := by
  rcases copyinstrFrom_spec hz max [] srcva max le_rfl with ⟨j, hs, heq⟩ | ⟨k, hs, heq⟩
  · exact ⟨true, j + 1, heq, hs.fits, ⟨fun _ => ⟨j, hs⟩, fun _ => rfl⟩, fun _ => ⟨j, hs, rfl⟩⟩
  · exact ⟨false, k, heq, hs.fits, ⟨nofun, fun ⟨_, hj⟩ => absurd hj hs.not_stringAt⟩, nofun⟩

end Xv6.Vm
