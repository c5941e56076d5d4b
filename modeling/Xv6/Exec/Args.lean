/-
# `Xv6.Exec.Args` — the arguments on the new stack

`exec` puts the argument strings one below the other, each at a multiple of 16, and
the array of pointers to them below.  Here is where they go, in integers without a
bound (`slots`, `arrayAt`), and that the code puts them there: the subtractions on
`uint64` wrap only where `copyout` then fails.
-/
import Xv6.Exec.Space

namespace Xv6.Exec

open Machine Xv6.Mem Xv6.Vm List

variable {im : Image} {t tf : Nat} {r : Ram} {k₀ : Kmem} {m₀ : Phys} {pt : Pgtbl} {x : Img}
  {g : Option Nat} {base top sp : Nat}

/-! ## Where things go -/

/-- Where `n` bytes go below `sp`. -/
def slot (sp : Int) (n : Nat) : Int := (sp - n) / 16 * 16

/-- Where the strings go. -/
def slots : Int → List CString → List Int
  | _, [] => []
  | sp, s :: argv => slot sp (s.chars.length + 1) :: slots (slot sp (s.chars.length + 1)) argv

/-- `sp` after the strings. -/
def lowest : Int → List CString → Int
  | sp, [] => sp
  | sp, s :: argv => lowest (slot sp (s.chars.length + 1)) argv

/-- Where the array of pointers goes, for a stack that ends at `top`. -/
def arrayAt (top : Int) (argv : List CString) : Int := slot (lowest top argv) (8 * (argv.length + 1))

/-- The arguments fit above `base`. -/
def Fits (base top : Nat) (argv : List CString) : Prop := (base : Int) ≤ arrayAt top argv

instance (base top : Nat) (argv : List CString) : Decidable (Fits base top argv) :=
  inferInstanceAs (Decidable ((base : Int) ≤ _))

theorem slot_le (sp : Int) (n : Nat) : slot sp n + n ≤ sp := by
  unfold slot
  omega

theorem slot_aligned (sp : Int) (n : Nat) : slot sp n % 16 = 0 := by
  unfold slot
  omega

theorem lowest_le : ∀ (sp : Int) (argv : List CString), lowest sp argv ≤ sp
  | _, [] => le_rfl
  | sp, s :: argv => by
    have h1 := lowest_le (slot sp (s.chars.length + 1)) argv
    have h2 := slot_le sp (s.chars.length + 1)
    rw [lowest]
    omega

/-! ## One item -/

/-- The pages of the stack can be written, and nothing above them can. -/
structure Stack (pt : Pgtbl) (base top : Nat) : Prop where
  pos : 0 < base
  low : top ≤ MAXVA
  writable : ∀ va, base ≤ va → (Writable pt va ↔ va < top)

theorem sub64_of_le {a b : Nat} (ha : a < 2 ^ 64) (h : b ≤ a) : sub64 a b = a - b := by
  unfold sub64
  omega

/-- Where the code puts an item: at its slot, or where the check or `copyout` fails. -/
theorem pushed_at (hs : Stack pt base top) (hsp : base ≤ sp) (htop : sp ≤ top) (n : Nat) :
    (base : Int) ≤ slot sp n ∧
      sub64 sp n - sub64 sp n % 16 = (slot sp n).toNat ∧ base ≤ (slot sp n).toNat ∧
      (∀ i < n, Writable pt ((slot sp n).toNat + i)) ∨
    slot sp n < base ∧ (sub64 sp n - sub64 sp n % 16 < base ∨
      ¬ ∀ i < n, Writable pt (sub64 sp n - sub64 sp n % 16 + i)) := by
  have hlow : top ≤ 274877906944 := hs.low
  have hpos := hs.pos
  by_cases hn : n ≤ sp
  · rw [sub64_of_le (by omega) hn]
    have hslot : slot sp n = ((sp - n - (sp - n) % 16 : Nat) : Int) := by
      unfold slot
      omega
    rw [hslot, Int.toNat_natCast]
    by_cases hb : base ≤ sp - n - (sp - n) % 16
    · refine .inl ⟨by omega, rfl, hb, fun i hi => (hs.writable _ (by omega)).mpr (by omega)⟩
    · exact .inr ⟨by omega, .inl (by omega)⟩
  · -- the subtraction wraps, if `n` is not even larger
    refine .inr ⟨by unfold slot; omega, ?_⟩
    by_cases hhuge : sp + 2 ^ 64 < n
    · have h0 : sub64 sp n = 0 := by
        unfold sub64
        omega
      exact .inl (by omega)
    · have hv : sub64 sp n = sp + 2 ^ 64 - n := by
        unfold sub64
        omega
      rw [hv]
      generalize hq : sp + 2 ^ 64 - n - (sp + 2 ^ 64 - n) % 16 = q
      by_cases hb : q < base
      · exact .inl hb
      · refine .inr fun hall => ?_
        rcases Nat.lt_or_ge q top with hlt | hge
        · have := (hs.writable (q + (top - q)) (by omega)).mp (hall (top - q) (by omega))
          omega
        · have := (hs.writable (q + 0) (by omega)).mp (hall 0 (by omega))
          omega

theorem succeeds_copyout (q : Nat) (bs : List UInt8) : Succeeds (onMem (copyout pt q bs)) r
    fun ok r' => ∃ k, r' = ⟨r.kmem, poke (phys pt) q (bs.take k) r.mem⟩ ∧
      Copied (Writable pt) q bs.length ok k := by
  obtain ⟨ok, k, heq, hc⟩ := copyout_spec pt r.mem q bs
  exact ⟨ok, _, by rw [onMem, heq]; rfl, k, rfl, hc⟩

theorem succeeds_push {bs : List UInt8} (hnd : k₀.ledger.free.Nodup)
    (h : Built im t tf k₀ m₀ r pt x g) (hs : Stack pt base x.top) (hsp : base ≤ sp)
    (htop : sp ≤ x.top) :
    Succeeds (push pt base sp bs) r fun o r' =>
      (base : Int) ≤ slot sp bs.length ∧ o = some (slot sp bs.length).toNat ∧
        Built im t tf k₀ m₀ r' pt (x.store (slot sp bs.length).toNat bs) g ∨
      slot sp bs.length < base ∧ o = none ∧ ∃ x', x'.sz = x.sz ∧ Built im t tf k₀ m₀ r' pt x' g := by
  unfold push
  rcases pushed_at hs hsp htop bs.length with ⟨hb, hq, hge, hw⟩ | ⟨hb, hno⟩
  · simp only [hq, if_neg (Nat.not_lt.mpr hge)]
    refine (succeeds_copyout (slot sp bs.length).toNat bs).seq ?_
    rintro ok _ ⟨k, rfl, hc⟩
    obtain rfl : ok = true := hc.iff.mpr hw
    refine Succeeds.pure (.inl ⟨hb, rfl, ?_⟩)
    rw [hc.all rfl, take_length]
    exact h.poke hnd fun i hi => (hs.writable _ (by omega)).mp (hw i hi)
  · generalize hq : sub64 sp bs.length - sub64 sp bs.length % 16 = q at hno
    simp only [hq]
    by_cases hlt : q < base
    · rw [if_pos hlt]
      exact Succeeds.pure (.inr ⟨hb, rfl, x, rfl, h⟩)
    · rw [if_neg hlt]
      refine (succeeds_copyout q bs).seq ?_
      rintro ok _ ⟨k, rfl, hc⟩
      obtain rfl : ok = false := by
        rw [← Bool.not_eq_true]
        exact mt hc.iff.mp (hno.resolve_left hlt)
      refine Succeeds.pure (.inr ⟨hb, rfl, x.store q (bs.take k), rfl, ?_⟩)
      refine h.poke hnd fun i hi => (hs.writable _ (by omega)).mp (hc.may i ?_)
      rw [length_take] at hi
      omega

/-! ## All of them -/

/-- The strings are stored. -/
def Img.pushStrings : Img → Int → List CString → Img
  | x, _, [] => x
  | x, sp, s :: argv =>
    (x.store (slot sp (s.chars.length + 1)).toNat (s.chars ++ [0])).pushStrings
      (slot sp (s.chars.length + 1)) argv

theorem pushStrings_sz : ∀ (x : Img) (sp : Int) (argv : List CString), (x.pushStrings sp argv).sz = x.sz
  | _, _, [] => rfl
  | x, sp, s :: argv => by
    rw [Img.pushStrings, pushStrings_sz]
    rfl

theorem succeeds_pushArgs (hnd : k₀.ledger.free.Nodup) (argv : List CString) {ustack : List Nat}
    (h : Built im t tf k₀ m₀ r pt x g) (hs : Stack pt base x.top) (hsp : base ≤ sp)
    (htop : sp ≤ x.top) (hlen : ustack.length + argv.length < MAXARG) :
    Succeeds (pushArgs pt base argv sp ustack) r fun o r' =>
      (base : Int) ≤ lowest sp argv ∧
        o = some ((lowest sp argv).toNat, ustack ++ (slots sp argv).map Int.toNat) ∧
        Built im t tf k₀ m₀ r' pt (x.pushStrings sp argv) g ∨
      lowest sp argv < base ∧ o = none ∧ ∃ x', x'.sz = x.sz ∧ Built im t tf k₀ m₀ r' pt x' g := by
  induction argv generalizing r x sp ustack with
  | nil =>
    refine Succeeds.pure (.inl ⟨by simpa [lowest] using hsp, ?_, h⟩)
    simp [lowest, slots]
  | cons s argv ih =>
    rw [length_cons] at hlen
    rw [pushArgs, if_neg (by omega)]
    refine (succeeds_push hnd h hs hsp htop).seq ?_
    have hbytes : (s.chars ++ [0]).length = s.chars.length + 1 := by simp
    rw [hbytes]
    rintro o r1 (⟨hb, rfl, hbuilt⟩ | ⟨hb, rfl, x', hx', hbuilt⟩)
    · -- it fits, and so may the rest
      have hle := slot_le sp (s.chars.length + 1)
      have hcast : ((slot sp (s.chars.length + 1)).toNat : Int) = slot sp (s.chars.length + 1) :=
        Int.toNat_of_nonneg (by omega)
      have hlen1 : (ustack ++ [(slot sp (s.chars.length + 1)).toNat]).length + argv.length <
          MAXARG := by
        rw [length_append, length_singleton]
        omega
      have hsp1 : base ≤ (slot sp (s.chars.length + 1)).toNat := by omega
      refine (ih hbuilt hs hsp1 (show _ ≤ x.top by omega) hlen1).mono ?_
      rw [hcast]
      rintro o r2 (⟨hb2, rfl, hbuilt2⟩ | ⟨hb2, rfl, x', hx', hbuilt2⟩)
      · refine .inl ⟨hb2, ?_, hbuilt2⟩
        rw [slots, map_cons, append_assoc, singleton_append, lowest]
      · exact .inr ⟨hb2, rfl, x', hx', hbuilt2⟩
    · refine Succeeds.pure (.inr ⟨?_, rfl, x', hx', hbuilt⟩)
      rw [lowest]
      have := lowest_le (slot sp (s.chars.length + 1)) argv
      omega

/-- The bytes of the array of pointers. -/
def arrayBytes (top : Int) (argv : List CString) : List UInt8 :=
  ((slots top argv).map Int.toNat ++ [0]).flatMap (leBytes 8)

theorem length_slots : ∀ (sp : Int) (argv : List CString), (slots sp argv).length = argv.length
  | _, [] => rfl
  | sp, s :: argv => by rw [slots, length_cons, length_slots, length_cons]

theorem length_arrayBytes (top : Int) (argv : List CString) :
    (arrayBytes top argv).length = 8 * (argv.length + 1) := by
  rw [arrayBytes, length_flatMap_leBytes, length_append, length_map, length_slots,
    length_singleton]

/-- The picture with the arguments on the stack. -/
def Img.withArgs (x : Img) (argv : List CString) : Img :=
  (x.pushStrings x.sz argv).store (arrayAt x.sz argv).toNat (arrayBytes x.sz argv)

/-- `execStack` stores the arguments if they fit, and fails if not. -/
theorem succeeds_execStack (hnd : k₀.ledger.free.Nodup) {argv : List CString}
    (h : Built im t tf k₀ m₀ r pt x g) (hround : x.top = x.sz)
    (hs : Stack pt (x.sz - USERSTACK * PGSIZE) x.top) (hlen : argv.length < MAXARG) :
    Succeeds (execStack pt x.sz argv) r fun o r' =>
      Fits (x.sz - USERSTACK * PGSIZE) x.sz argv ∧ o = some (arrayAt x.sz argv).toNat ∧
        Built im t tf k₀ m₀ r' pt (x.withArgs argv) g ∨
      ¬ Fits (x.sz - USERSTACK * PGSIZE) x.sz argv ∧ o = none ∧
        ∃ x', x'.sz = x.sz ∧ Built im t tf k₀ m₀ r' pt x' g := by
  unfold execStack Fits
  have hbase := Nat.sub_le x.sz (USERSTACK * PGSIZE)
  generalize x.sz - USERSTACK * PGSIZE = base at hs hbase ⊢
  refine (succeeds_pushArgs hnd argv h hs hbase hround.ge (by simpa using hlen)).seq ?_
  rintro o r1 (⟨hb, rfl, hb1⟩ | ⟨hb, rfl, x', hx', hb1⟩)
  · -- the strings are there; the array is one more item
    have hle := lowest_le x.sz argv
    have hcast : ((lowest x.sz argv).toNat : Int) = lowest x.sz argv := Int.toNat_of_nonneg (by omega)
    have hmany : ¬ MAXARG ≤ ((slots x.sz argv).map Int.toNat).length := by
      rw [length_map, length_slots]
      omega
    have htop : (x.pushStrings x.sz argv).top = x.top := by rw [Img.top, pushStrings_sz]; rfl
    simp only [nil_append, if_neg hmany]
    show Succeeds (push pt base (lowest x.sz argv).toNat (arrayBytes x.sz argv)) r1 _
    have hs1 : Stack pt base (x.pushStrings x.sz argv).top := by rwa [htop]
    have hsp : (lowest x.sz argv).toNat ≤ (x.pushStrings x.sz argv).top := by
      omega
    refine (succeeds_push hnd hb1 hs1 (by omega) hsp).mono ?_
    rw [hcast, length_arrayBytes]
    rintro o r2 (⟨hb2, rfl, hb2'⟩ | ⟨hb2, rfl, x', hx', hb2'⟩)
    · exact .inl ⟨hb2, rfl, hb2'⟩
    · exact .inr ⟨not_le.mpr hb2, rfl, x', hx'.trans (pushStrings_sz ..), hb2'⟩
  · refine Succeeds.pure (.inr ⟨?_, rfl, x', hx', hb1⟩)
    have := slot_le (lowest x.sz argv) (8 * (argv.length + 1))
    rw [arrayAt]
    omega

/-! ## What the stack holds -/

/-- The stores are below `sp` and not below the last string. -/
theorem pushStrings_frame : ∀ (argv : List CString) {x : Img} {sp : Int} {va : Nat},
    va < lowest sp argv ∨ 0 ≤ lowest sp argv ∧ sp ≤ va →
      (x.pushStrings sp argv).byte va = x.byte va
  | [], _, _, _, _ => rfl
  | s :: argv, x, sp, va, hva => by
    rw [lowest] at hva
    have h1 := lowest_le (slot sp (s.chars.length + 1)) argv
    have h2 := slot_le sp (s.chars.length + 1)
    rw [Img.pushStrings, pushStrings_frame argv (by omega)]
    refine poke_frame (s.chars ++ [0]) x.byte fun i hi he => ?_
    rw [length_append, length_singleton] at hi
    have he : (slot sp (s.chars.length + 1)).toNat + i = va := he
    omega

/-- A string lies below `sp`, and above what comes after. -/
theorem slots_le : ∀ (argv : List CString) {sp q : Int} {i : Nat} (hi : i < argv.length),
    (slots sp argv)[i]? = some q → lowest sp argv ≤ q ∧ q + (argv[i].chars.length + 1 : Nat) ≤ sp
  | s :: argv, sp, q, 0, _, hq => by
    obtain rfl : slot sp (s.chars.length + 1) = q := by simpa [slots] using hq
    exact ⟨lowest_le _ argv, slot_le sp (s.chars.length + 1)⟩
  | s :: argv, sp, q, i + 1, hi, hq => by
    obtain ⟨h1, h2⟩ := slots_le argv (Nat.lt_of_succ_lt_succ hi) hq
    have h3 := slot_le sp (s.chars.length + 1)
    rw [getElem_cons_succ]
    exact ⟨h1, by omega⟩

/-- No string reaches into one before it. -/
theorem slots_disjoint : ∀ (argv : List CString) {sp p q : Int} {i j : Nat} (hj : j < argv.length),
    i < j → (slots sp argv)[i]? = some p → (slots sp argv)[j]? = some q →
    q + (argv[j].chars.length + 1 : Nat) ≤ p
  | s :: argv, sp, p, q, 0, j + 1, hj, _, hp, hq => by
    obtain rfl : slot sp (s.chars.length + 1) = p := by simpa [slots] using hp
    exact (slots_le argv (Nat.lt_of_succ_lt_succ hj) hq).2
  | s :: argv, sp, p, q, i + 1, j + 1, hj, hij, hp, hq => by
    exact slots_disjoint argv (Nat.lt_of_succ_lt_succ hj) (Nat.lt_of_succ_lt_succ hij) hp hq

/-- Every string is where it goes. -/
theorem string_pushed : ∀ (argv : List CString) {x : Img} {sp q : Int} {i : Nat} (hi : i < argv.length),
    0 ≤ lowest sp argv → (slots sp argv)[i]? = some q →
    peek id q.toNat (argv[i].chars.length + 1) (x.pushStrings sp argv).byte = argv[i].chars ++ [0]
  | s :: argv, x, sp, q, 0, _, hlow, hq => by
    obtain rfl : slot sp (s.chars.length + 1) = q := by simpa [slots] using hq
    have hlen : s.chars.length + 1 = (s.chars ++ [0]).length := by simp
    have hread := peek_poke (slot sp (s.chars.length + 1)).toNat (s.chars ++ [0]) x.byte
      (Set.injOn_id _)
    rw [← hlen] at hread
    refine Eq.trans (peek_congr fun j hj => ?_) hread
    exact pushStrings_frame argv (.inr ⟨hlow, by rw [id_eq]; omega⟩)
  | s :: argv, x, sp, q, i + 1, hi, hlow, hq => by
    exact string_pushed argv (Nat.lt_of_succ_lt_succ hi) hlow hq

section

variable {argv : List CString} (hfits : Fits base x.sz argv)

include hfits

/-- The stack below its end: the array, then the strings. -/
theorem Fits.le : base ≤ (arrayAt x.sz argv).toNat ∧
    ((arrayAt x.sz argv).toNat + 8 * (argv.length + 1) : Nat) ≤ lowest x.sz argv ∧
    0 ≤ lowest x.sz argv := by
  have h : (base : Int) ≤ arrayAt x.sz argv := hfits
  have := slot_le (lowest x.sz argv) (8 * (argv.length + 1))
  have : arrayAt x.sz argv = slot (lowest x.sz argv) (8 * (argv.length + 1)) := rfl
  omega

/-- The strings, with the array below them. -/
theorem string_withArgs {q : Int} {i : Nat} (hi : i < argv.length)
    (hq : (slots x.sz argv)[i]? = some q) :
    peek id q.toNat (argv[i].chars.length + 1) (x.withArgs argv).byte = argv[i].chars ++ [0] := by
  obtain ⟨-, harr, hlow⟩ := hfits.le
  refine Eq.trans (peek_congr fun j hj => ?_) (string_pushed argv (x := x) hi hlow hq)
  refine poke_frame _ _ fun l hl he => ?_
  rw [length_arrayBytes] at hl
  have := (slots_le argv hi hq).1
  have he : (arrayAt x.sz argv).toNat + l = q.toNat + j := he
  omega

omit hfits in
/-- The words of the array. -/
theorem word_withArgs (hsz : x.sz < 2 ^ 64) {i : Nat} {w : Nat}
    (hw : ((slots x.sz argv).map Int.toNat ++ [0])[i]? = some w) :
    leWord (peek id ((arrayAt x.sz argv).toNat + 8 * i) 8 (x.withArgs argv).byte) = w := by
  obtain ⟨hi, hget⟩ := List.getElem?_eq_some_iff.mp hw
  have hlen : ((slots x.sz argv).map Int.toNat ++ [0]).length = argv.length + 1 := by
    rw [length_append, length_map, length_slots, length_singleton]
  have hpart := peek_poke_part (arrayAt x.sz argv).toNat (j := 8 * i) (n := 8)
    (arrayBytes x.sz argv) (x.pushStrings x.sz argv).byte (Set.injOn_id _)
    (by rw [length_arrayBytes]; omega)
  rw [Img.withArgs, Img.store, hpart, arrayBytes, word_flatMap_leBytes 8 _ i hi, hget]
  refine leWord_leBytes ?_
  -- a pointer is below the end of the stack
  rcases mem_append.mp (mem_of_getElem? hw) with hmem | hmem
  · obtain ⟨q, hq, rfl⟩ := mem_map.mp hmem
    obtain ⟨j, hj⟩ := mem_iff_getElem?.mp hq
    have hj' : j < argv.length := by
      have := (List.getElem?_eq_some_iff.mp hj).1
      rwa [length_slots] at this
    have := (slots_le argv hj' hj).2
    show q.toNat < 18446744073709551616
    omega
  · rw [mem_singleton.mp hmem]
    decide

end

end Xv6.Exec
