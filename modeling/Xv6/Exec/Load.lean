/-
# `Xv6.Exec.Load` — loading the segments of a program

`loadseg` and the loop over the program headers, on pictures of the new address
space: what `exec` builds from a file is `Img.load` of its loadable segments, one
after the other.
-/
import Xv6.Exec.Space

namespace Xv6.Exec

open Machine Xv6.Mem Xv6.Vm List

variable {im : Image} {t tf : Nat} {r : Ram} {k₀ : Kmem} {m₀ : Phys} {pt : Pgtbl} {x : Img}
  {g : Option Nat} {data : List UInt8} {a n : Nat} {i sz off : UInt32}

/-! ## readi -/

theorem not_add_lt {a b : UInt32} (h : ¬ a + b < a) : (a + b).toNat = a.toNat + b.toNat := by
  have h := mt UInt32.lt_iff_toNat_lt.mpr h
  rw [UInt32.toNat_add] at h ⊢
  have := b.toNat_lt
  omega

/-- The bytes are those of the file from `off` on, and all that was asked for is there
only if the file does not end before. -/
theorem readi_spec (data : List UInt8) (off n : UInt32) :
    ∃ k ≤ n.toNat, readi data off n = (data.drop off.toNat).take k ∧ (readi data off n).length = k ∧
      (k = n.toNat → 0 < k → off.toNat + k ≤ data.length) := by
  unfold readi
  split
  · exact ⟨0, Nat.zero_le _, by simp, rfl, fun _ h => absurd h (lt_irrefl 0)⟩
  · rename_i hno
    obtain ⟨hlen, hwrap⟩ := not_or.mp hno
    have hadd := not_add_lt hwrap
    split
    · refine ⟨data.length - off.toNat, by omega, rfl, ?_, fun _ _ => by omega⟩
      rw [length_take, length_drop, Nat.min_self]
    · refine ⟨n.toNat, le_rfl, rfl, ?_, fun _ _ => by omega⟩
      rw [length_take, length_drop]
      omega

/-! ## loadseg -/

theorem walkaddr_eq_pa (h : Mem.walkaddr pt a ≠ 0) : Mem.walkaddr pt a = (pt.leaf a).pa := by
  revert h
  unfold Mem.walkaddr
  dsimp only
  split
  · exact absurd rfl
  split
  · exact absurd rfl
  split
  · exact absurd rfl
  split
  · exact absurd rfl
  · exact fun _ => rfl

/-- A store to a page, and through the page table. -/
theorem memmove_page {bs : List UInt8} (ha : a % PGSIZE = 0) (hlen : bs.length ≤ PGSIZE)
    (h : Mem.walkaddr pt a ≠ 0) (m : Phys) :
    memmove (Mem.walkaddr pt a) bs m = poke (phys pt) a bs m := by
  refine poke_congr bs m fun i hi => ?_
  have ha : a % 4096 = 0 := ha
  have hi : i < 4096 := lt_of_lt_of_le hi hlen
  have hpage : (a + i) / PGSIZE = a / PGSIZE := by
    show (a + i) / 4096 = a / 4096
    omega
  have hoff : (a + i) % PGSIZE = i := by
    show (a + i) % 4096 = i
    omega
  rw [walkaddr_eq_pa h, phys, hoff, Tbl.leaf_congr pt (same_of_page hpage)]
  rfl

/-- How much a round asks for. -/
theorem round_size (h : i < sz) :
    (if sz - i < 4096 then sz - i else 4096).toNat = min (sz.toNat - i.toNat) 4096 := by
  have hsub : (sz - i).toNat = sz.toNat - i.toNat := UInt32.toNat_sub_of_le _ _ (UInt32.le_of_lt h)
  have hlt : sz - i < 4096 ↔ sz.toNat - i.toNat < 4096 := by
    rw [UInt32.lt_iff_toNat_lt, hsub]
    rfl
  split
  · rename_i h
    rw [hsub, Nat.min_eq_left (hlt.mp h).le]
  · rename_i h
    exact (Nat.min_eq_right (Nat.not_lt.mp (mt hlt.mpr h))).symm

theorem next_page (h : i.toNat + 4096 < 2 ^ 32) : (i + 4096).toNat = i.toNat + 4096 := by
  exact Nat.mod_eq_of_lt h

section

variable {va : Nat} {offset sz i : UInt32}

/-- A round stores a part of the file, and goes on if that was all it asked for. -/
theorem loadsegFrom_round (data : List UInt8) (rounds : Nat) (r : Ram) (hlt : i < sz)
    (hal : (va + i.toNat) % PGSIZE = 0)
    (h64 : va + i.toNat < 2 ^ 64) (hpa : Mem.walkaddr pt (va + i.toNat) ≠ 0)
    (hstart : (offset + i).toNat = offset.toNat + i.toNat) :
    ∃ k ≤ min (sz.toNat - i.toNat) 4096, k ≤ data.length - (offset.toNat + i.toNat) ∧
      ((data.drop (offset.toNat + i.toNat)).take k).length = k ∧
      (k = min (sz.toNat - i.toNat) 4096 → offset.toNat + i.toNat + k ≤ data.length) ∧
      loadsegFrom pt va data offset sz (rounds + 1) i r =
        (if k ≠ min (sz.toNat - i.toNat) 4096 then pure false
          else loadsegFrom pt va data offset sz rounds (i + 4096))
          ⟨r.kmem, poke (phys pt) (va + i.toNat)
            ((data.drop (offset.toNat + i.toNat)).take k) r.mem⟩ := by
  have hsize := round_size hlt
  have hlt' := UInt32.lt_iff_toNat_lt.mp hlt
  have hmod : (va + i.toNat) % 2 ^ 64 = va + i.toNat := Nat.mod_eq_of_lt h64
  rw [loadsegFrom, if_pos hlt]
  simp only [hmod, if_neg hpa]
  generalize (if sz - i < 4096 then sz - i else 4096) = n at hsize ⊢
  obtain ⟨k, hk, hbs, hlen, hfull⟩ := readi_spec data (offset + i) n
  rw [hstart] at hbs hfull
  rw [← hsize]
  refine ⟨k, hk, ?_, by rw [← hbs, hlen], fun hkn => hfull hkn (by omega), ?_⟩
  · have := congrArg List.length hbs
    rw [hlen, length_take, length_drop] at this
    omega
  · have hstore : memmove (Mem.walkaddr pt (va + i.toNat)) (readi data (offset + i) n) r.mem =
        poke (phys pt) (va + i.toNat) ((data.drop (offset.toNat + i.toNat)).take k) r.mem := by
      rw [memmove_page hal (by rw [hlen]; show k ≤ 4096; omega) hpa, hbs]
    rw [← hstore, hlen]
    rfl

/-- The loop of `loadseg` at `i`.  The file is too short for the counter to wrap, so
the rounds are enough. -/
theorem succeeds_loadsegFrom (hdata : data.length < 2 ^ 31) (hal : va % PGSIZE = 0)
    (hthere : ∀ j < sz.toNat, j % PGSIZE = 0 → Mem.walkaddr pt (va + j) ≠ 0 ∧ va + j < 2 ^ 64)
    (rounds : Nat) (hr : rounds * 4096 + i.toNat = 2 ^ 32 + 4096) (hi : i.toNat % 4096 = 0)
    (hoff : i.toNat = 0 ∨ sz.toNat ≤ i.toNat ∨ offset.toNat + i.toNat ≤ data.length) :
    Succeeds (loadsegFrom pt va data offset sz rounds i) r fun ok r' =>
      ∃ k, k + i.toNat ≤ max sz.toNat i.toNat ∧ (ok = true → k + i.toNat = max sz.toNat i.toNat) ∧
        k ≤ data.length - (offset.toNat + i.toNat) ∧
        r' = ⟨r.kmem, poke (phys pt) (va + i.toNat)
          ((data.drop (offset.toNat + i.toNat)).take k) r.mem⟩ := by
  induction rounds generalizing i r with
  | zero =>
    have := i.toNat_lt
    omega
  | succ rounds ih =>
    by_cases hlt : i < sz
    swap
    · rw [loadsegFrom, if_neg hlt]
      have hge := mt UInt32.lt_iff_toNat_lt.mpr hlt
      refine Succeeds.pure ⟨0, by omega, fun _ => by omega, Nat.zero_le _, ?_⟩
      rw [take_zero, poke]
    have hlt' := UInt32.lt_iff_toNat_lt.mp hlt
    obtain ⟨hpa, h64⟩ := hthere i.toNat hlt' hi
    have hal' : va % 4096 = 0 := hal
    have hstart : (offset + i).toNat = offset.toNat + i.toNat := by
      rw [UInt32.toNat_add]
      have := offset.toNat_lt
      exact Nat.mod_eq_of_lt (by omega)
    obtain ⟨k, hk, hkle, hlen, hfull, heq⟩ := loadsegFrom_round data rounds r hlt
      (show (va + i.toNat) % 4096 = 0 by omega) h64 hpa hstart
    unfold Succeeds
    rw [heq]
    split
    · -- the file ends here
      exact ⟨false, _, rfl, k, by omega, by rintro ⟨⟩, hkle, rfl⟩
    · rename_i hkn
      have hnext := next_page (i := i) (by omega)
      have hr' : rounds * 4096 + (i + 4096).toNat = 2 ^ 32 + 4096 := by
        rw [hnext, ← hr, Nat.succ_mul, Nat.add_comm i.toNat, Nat.add_assoc]
      have hi' : (i + 4096).toNat % 4096 = 0 := by
        omega
      have hoff' : sz.toNat ≤ (i + 4096).toNat ∨
          offset.toNat + (i + 4096).toNat ≤ data.length := by
        omega
      refine (ih hr' hi' (.inr hoff')).mono ?_
      rintro ok r' ⟨k', hk', hall, hkle', rfl⟩
      rw [hnext] at hk' hall hkle' ⊢
      by_cases hlast : k = 4096
      · refine ⟨k + k', by omega, fun hok => by have := hall hok; omega, by omega, ?_⟩
        rw [take_add, drop_drop, poke_append, hlen, hlast, Nat.add_assoc, Nat.add_assoc]
      · -- that was the last page
        obtain rfl : k' = 0 := by omega
        exact ⟨k, by omega, fun _ => by omega, hkle, by rw [take_zero, poke]⟩

end

theorem size_le_top {x : Img} (h : x.sz ≤ MAXVA) : x.sz ≤ x.top := by
  unfold Img.top
  rw [npages_eq h]
  show x.sz ≤ (x.sz + 4095) / 4096 * 4096
  omega

/-- A part of the segment is stored, all of it if `loadseg` returns 0. -/
theorem succeeds_loadseg {va : Nat} {offset : UInt32} (hnd : k₀.ledger.free.Nodup)
    (h : Built im t tf k₀ m₀ r pt x none) (hdata : data.length < 2 ^ 31) (hal : va % PGSIZE = 0)
    (hend : va + sz.toNat ≤ x.sz) :
    Succeeds (loadseg pt va data offset sz) r fun ok r' => ∃ k, (ok = true → k = sz.toNat) ∧
      Built im t tf k₀ m₀ r' pt (x.store va ((data.drop offset.toNat).take k)) none := by
  have hmax := size_le_maxva h.space.size
  have hthere : ∀ j < sz.toNat, j % PGSIZE = 0 →
      Mem.walkaddr pt (va + j) ≠ 0 ∧ va + j < 2 ^ 64 := by
    intro j hj hjal
    have hal : va % 4096 = 0 := hal
    have hjal : j % 4096 = 0 := hjal
    have hmax : x.sz ≤ 274877906944 := hmax
    have hpage : va + j = (va + j) / 4096 * PGSIZE := by
      show va + j = (va + j) / 4096 * 4096
      omega
    refine ⟨?_, by omega⟩
    rw [hpage]
    refine walkaddr_ne_zero h.space ?_
    rw [npages_eq hmax]
    omega
  refine (succeeds_loadsegFrom hdata hal hthere (2 ^ 32 / PGSIZE + 1) rfl rfl
    (.inl rfl)).mono ?_
  rintro ok r' ⟨k, hk, hall, -, rfl⟩
  have hzero : (0 : UInt32).toNat = 0 := rfl
  simp only [hzero, Nat.add_zero, Nat.max_zero] at hk hall ⊢
  refine ⟨k, hall, h.poke hnd fun i hi => ?_⟩
  rw [length_take] at hi
  have := size_le_top hmax
  omega

/-! ## The program headers -/

/-- The program headers that `exec` reads: `n` of them, one after the other. -/
def headers (data : List UInt8) : Nat → UInt32 → List Proghdr
  | 0, _ => []
  | n + 1, off => Proghdr.ofBytes (readi data off 56) :: headers data n (off + 56)

def Proghdr.loadable (ph : Proghdr) : Bool := ph.type == ELF_PROG_LOAD

/-- What `exec` checks of a loadable segment. -/
structure Checked (ph : Proghdr) : Prop where
  filesz : ph.filesz.toNat ≤ ph.memsz.toNat
  wrap : (ph.vaddr + ph.memsz).toNat = ph.vaddr.toNat + ph.memsz.toNat
  aligned : ph.vaddr.toNat % PGSIZE = 0

/-- A segment is added to the picture. -/
def Img.load (data : List UInt8) (x : Img) (ph : Proghdr) : Img :=
  (x.grow (ph.vaddr + ph.memsz).toNat (flags2perm ph.flags)).store ph.vaddr.toNat
    ((data.drop ph.off.toUInt32.toNat).take ph.filesz.toUInt32.toNat)

/-- The loadable segments of `n` headers from `off` on. -/
def segments (data : List UInt8) (n : Nat) (off : UInt32) : List Proghdr :=
  (headers data n off).filter Proghdr.loadable

theorem segments_skip (h : (Proghdr.ofBytes (readi data off 56)).type ≠ ELF_PROG_LOAD) :
    segments data (n + 1) off = segments data n (off + 56) :=
  filter_cons_of_neg (by simpa [Proghdr.loadable] using h)

theorem segments_take (h : ¬ (Proghdr.ofBytes (readi data off 56)).type ≠ ELF_PROG_LOAD) :
    segments data (n + 1) off = Proghdr.ofBytes (readi data off 56) :: segments data n (off + 56) :=
  filter_cons_of_pos (by simpa [Proghdr.loadable] using h)

/-- The loop keeps a space that is well built, and at its end has loaded every segment. -/
theorem succeeds_loadFrom (hnd : k₀.ledger.free.Nodup) (hdata : data.length < 2 ^ 31) (n : Nat)
    (off : UInt32) (h : Built im t tf k₀ m₀ r pt x none) :
    Succeeds (loadFrom im t data n off pt x.sz) r fun y r' => ∃ x', y.2.2 = x'.sz ∧
      Built im t tf k₀ m₀ r' y.2.1 x' none ∧ (y.1 = true →
        (∀ ph ∈ segments data n off, Checked ph) ∧
        x' = (segments data n off).foldl (Img.load data) x) := by
  induction n generalizing off r pt x with
  | zero => exact Succeeds.pure ⟨x, rfl, h, fun _ => ⟨nofun, rfl⟩⟩
  | succ n ih =>
    have hstop : Succeeds (pure (false, pt, x.sz) : RamM (Bool × Pgtbl × Nat)) r fun y r' =>
        ∃ x', y.2.2 = x'.sz ∧ Built im t tf k₀ m₀ r' y.2.1 x' none ∧ (y.1 = true →
          (∀ ph ∈ segments data (n + 1) off, Checked ph) ∧
          x' = (segments data (n + 1) off).foldl (Img.load data) x) :=
      Succeeds.pure ⟨x, rfl, h, nofun⟩
    rw [loadFrom]
    split
    · exact hstop
    split
    · rename_i htype
      rw [segments_skip htype]
      exact ih (off + 56) h
    rename_i htype
    rw [segments_take htype] at hstop ⊢
    generalize Proghdr.ofBytes (readi data off 56) = ph at hstop ⊢
    split
    · exact hstop
    split
    · exact hstop
    split
    · exact hstop
    rename_i hfile hwrap halign
    have hcheck : Checked ph := by
      refine ⟨?_, toNat_add_of_not_lt hwrap, not_not.mp halign⟩
      exact Nat.not_lt.mp (mt UInt64.lt_iff_toNat_lt.mpr hfile)
    refine (succeeds_grow hnd h).seq ?_
    rintro ⟨sz1, pt1⟩ r1 (⟨h0, hb⟩ | ⟨h0, hsz, hb⟩)
    · simp only at h0 hb ⊢
      rw [if_pos h0]
      exact Succeeds.pure ⟨x, rfl, hb, nofun⟩
    · simp only at h0 hsz hb ⊢
      rw [if_neg h0]
      have hend : ph.vaddr.toNat + ph.filesz.toUInt32.toNat ≤
          (x.grow (ph.vaddr + ph.memsz).toNat (flags2perm ph.flags)).sz := by
        have h1 : ph.filesz.toUInt32.toNat ≤ ph.filesz.toNat := by
          exact Nat.mod_le _ _
        have h2 := hcheck.filesz
        show _ ≤ max x.sz (ph.vaddr + ph.memsz).toNat
        rw [hcheck.wrap]
        omega
      refine (succeeds_loadseg hnd hb hdata hcheck.aligned hend).seq ?_
      rintro ok r2 ⟨k, hk, hb2⟩
      cases ok with
      | false => exact Succeeds.pure ⟨_, hsz, hb2, nofun⟩
      | true =>
        rw [hk rfl] at hb2
        subst hsz
        refine (ih (off + 56) hb2).mono ?_
        rintro y r' ⟨x', hsz', hb', hall⟩
        refine ⟨x', hsz', hb', fun hy => ?_⟩
        obtain ⟨hchecks, hx'⟩ := hall hy
        refine ⟨fun ph' hph => ?_, hx'⟩
        rcases mem_cons.mp hph with rfl | hph
        · exact hcheck
        · exact hchecks ph' hph

end Xv6.Exec
