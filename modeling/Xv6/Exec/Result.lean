/-
# `Xv6.Exec.Result` — the process that `exec` leaves

What a successful `exec` means for the program that starts: it finds its arguments on
the stack, and at the addresses of its segments the bytes of the file.

**Proved here.**

  * the strings, the array of pointers to them, and when they fit
    (`exec_hands_over_arguments`)
  * the bytes, the zeros, the permissions, the entry point and the stack
    (`exec_loads_image`)
-/
import Xv6.Exec.Spec

namespace Xv6.Exec

open Machine Xv6.Mem Xv6.Vm List

variable {im : Image} {s s' : Sys} {r : Ram} {pt : Pgtbl} {x : Img} {data : List UInt8}
  {path : CString} {argv : List CString} {i : Nat}

/-! ## The image under the stack -/

/-- The arguments are on the stack, and not below it. -/
theorem withArgs_below {base va : Nat} (hfits : Fits base x.sz argv) (hva : va < base) :
    (x.withArgs argv).byte va = x.byte va := by
  obtain ⟨h1, h2, h3⟩ := hfits.le
  refine Eq.trans (poke_frame _ _ fun i hi he => ?_) (pushStrings_frame argv (.inl (by omega)))
  have he : (arrayAt x.sz argv).toNat + i = va := he
  omega

theorem withArgs_perm (x : Img) (argv : List CString) : (x.withArgs argv).perm = x.perm := by
  have h : ∀ (argv : List CString) (x : Img) (sp : Int), (x.pushStrings sp argv).perm = x.perm := by
    intro argv
    induction argv with
    | nil => exact fun _ _ => rfl
    | cons s argv ih =>
      intro x sp
      rw [Img.pushStrings, ih]
      rfl
  exact h argv x x.sz

theorem withArgs_sz (x : Img) (argv : List CString) : (x.withArgs argv).sz = x.sz :=
  pushStrings_sz ..

theorem withStack_byte (x : Img) : x.withStack.byte = x.byte := rfl

theorem withStack_perm (hx : x.sz ≤ TRAPFRAME) (hi : i < npages x.sz) :
    x.withStack.perm i = x.perm i := by
  have hround : npages x.rounded.sz = npages x.sz := npages_mul (le_maxpage (size_le_maxva hx))
  show Function.update _ (npages x.sz) _ i = _
  rw [Function.update_of_ne (by omega)]
  show (if i < npages x.rounded.sz then _ else _) = _
  rw [hround, if_pos hi]
  rfl

/-! ## The arguments -/

/-- The word at a user address. -/
def wordAt (pt : Pgtbl) (m : Phys) (va : Nat) : Nat := leWord (peek (phys pt) va 8 m)

theorem Shows.peek {m : Phys} {va n : Nat} (h : Shows pt m x) (hn : va + n ≤ x.top) :
    Machine.peek (phys pt) va n m = Machine.peek id va n x.byte :=
  peek_congr fun i hi => h.byte (va + i) (by omega)

section

variable (h : Execed im s path data argv s')

include h

theorem Execed.top_eq : ((imageOf data).withStack.withArgs argv).top = (imageOf data).withStack.sz := by
  have hsz := withStack_sz (imageOf data)
  obtain ⟨g, hsp⟩ := h.ready.space
  have hsize : s'.proc.sz ≤ TRAPFRAME := hsp.size
  rw [h.sz, hsz] at hsize
  have hsize : (npages (imageOf data).sz + 3) * 4096 ≤ 274877898752 := hsize
  rw [Img.top, withArgs_sz, hsz, npages_mul]
  show npages (imageOf data).sz + 3 ≤ 67108864
  omega

theorem Execed.small : (imageOf data).withStack.sz ≤ TRAPFRAME := by
  obtain ⟨g, hsp⟩ := h.ready.space
  rw [← h.sz]
  exact hsp.size

/-- The pointers that the new stack holds. -/
theorem Execed.word {w : Nat}
    (hw : ((slots (imageOf data).withStack.sz argv).map Int.toNat ++ [0])[i]? = some w) :
    wordAt s'.proc.pagetable s'.ram.mem (s'.proc.regs.sp + 8 * i) = w := by
  have hlt : i < argv.length + 1 := by
    have := (List.getElem?_eq_some_iff.mp hw).1
    rwa [length_append, length_map, length_slots, length_singleton] at this
  obtain ⟨-, harr, -⟩ := h.fits.le
  have hlow := lowest_le (imageOf data).withStack.sz argv
  have hsz : (imageOf data).withStack.sz ≤ 274877898752 := h.small
  have hin : (arrayAt (imageOf data).withStack.sz argv).toNat + 8 * i + 8 ≤
      ((imageOf data).withStack.withArgs argv).top := by
    rw [h.top_eq]
    omega
  rw [wordAt, h.regs, h.shows.peek hin]
  exact word_withArgs (show _ < 18446744073709551616 by omega) hw

theorem Execed.slot_spec (hi : i < argv.length) :
    ∃ q : Int, (slots (imageOf data).withStack.sz argv)[i]? = some q ∧
      wordAt s'.proc.pagetable s'.ram.mem (s'.proc.regs.sp + 8 * i) = q.toNat ∧
      s'.proc.regs.sp + 8 * (argv.length + 1) ≤ q.toNat ∧ (q.toNat : Int) = q ∧
      q.toNat + (argv[i].chars.length + 1) ≤ s'.proc.sz ∧
      Machine.peek (phys s'.proc.pagetable) q.toNat (argv[i].chars.length + 1) s'.ram.mem =
        argv[i].chars ++ [0] := by
  have hlen : i < (slots (imageOf data).withStack.sz argv).length := by rwa [length_slots]
  obtain ⟨q, hq⟩ : ∃ q, (slots (imageOf data).withStack.sz argv)[i]? = some q :=
    ⟨_, List.getElem?_eq_getElem hlen⟩
  obtain ⟨-, harr, hlow⟩ := h.fits.le
  obtain ⟨hq1, hq2⟩ := slots_le argv hi hq
  have hcast : (q.toNat : Int) = q := Int.toNat_of_nonneg (by omega)
  have hend : q.toNat + (argv[i].chars.length + 1) ≤ (imageOf data).withStack.sz := by omega
  refine ⟨q, hq, h.word ?_, ?_, hcast, by rwa [h.sz], ?_⟩
  · rw [List.getElem?_append_left (by rwa [length_map]), List.getElem?_map, hq]
    rfl
  · rw [h.regs]
    show (arrayAt _ argv).toNat + _ ≤ _
    omega
  · rw [h.shows.peek (by rw [h.top_eq]; exact hend)]
    exact string_withArgs h.fits hi hq

/-- The page below the stack is the guard page. -/
theorem Execed.guard : ¬ User s'.proc.pagetable (s'.proc.sz - USERSTACK * PGSIZE - 1) := by
  intro hu
  have hsz : s'.proc.sz = (npages (imageOf data).sz + 3) * 4096 := h.sz.trans (withStack_sz _)
  have hpage : (s'.proc.sz - USERSTACK * PGSIZE - 1) / PGSIZE = npages (imageOf data).sz := by
    rw [hsz]
    show ((npages (imageOf data).sz + 3) * 4096 - 2 * 4096 - 1) / 4096 = _
    omega
  have hbit := hu.u
  rw [leaf_eq_map hu.low, hpage] at hbit
  exact (h.shape.user _ (h.shape.inside _ rfl)).2.mp hbit rfl

end

/-- A process that `exec` has started finds its arguments: `argc` of them, and at `a1`,
which is its stack pointer, the array of pointers to the strings.  Once the image and the
stack pages are in place, `exec` fails exactly if they do not fit. -/
theorem exec_hands_over_arguments (im : Image) (s : Sys) (h : Ready im s) (path : CString)
    (file : Option (List UInt8)) (hfile : ∀ data, file = some data → data.length ≤ MAXFILE * BSIZE)
    (argv : List CString) (hargs : argv.length < MAXARG) :
    (∀ argc s', exec im path file argv s = .ok (some argc, s') →
      argc = argv.length ∧ s'.proc.regs.a1 = s'.proc.regs.sp ∧ s'.proc.regs.sp % 16 = 0 ∧
      wordAt s'.proc.pagetable s'.ram.mem (s'.proc.regs.sp + 8 * argc) = 0 ∧
      (∀ (i : Nat) (hi : i < argv.length), peek (phys s'.proc.pagetable)
          (wordAt s'.proc.pagetable s'.ram.mem (s'.proc.regs.sp + 8 * i))
          (argv[i].chars.length + 1) s'.ram.mem = argv[i].chars ++ [0] ∧
        s'.proc.regs.sp + 8 * (argc + 1) ≤
          wordAt s'.proc.pagetable s'.ram.mem (s'.proc.regs.sp + 8 * i) ∧
        wordAt s'.proc.pagetable s'.ram.mem (s'.proc.regs.sp + 8 * i) +
          (argv[i].chars.length + 1) ≤ s'.proc.sz) ∧
      (∀ (i j : Nat) (hj : j < argv.length), i < j →
        wordAt s'.proc.pagetable s'.ram.mem (s'.proc.regs.sp + 8 * j) + (argv[j].chars.length + 1) ≤
          wordAt s'.proc.pagetable s'.ram.mem (s'.proc.regs.sp + 8 * i)) ∧
      s'.proc.sz - USERSTACK * PGSIZE ≤ s'.proc.regs.sp ∧
      ¬ User s'.proc.pagetable (s'.proc.sz - USERSTACK * PGSIZE - 1)) ∧
    ∀ new s₁, prepare im file s = .ok (some new, s₁) → ∃ o s',
      exec im path file argv s = .ok (o, s') ∧
      (o = none ↔ ¬ Fits (new.sz - USERSTACK * PGSIZE) new.sz argv) := by
  have hshort : ∀ data, file = some data → data.length < 2 ^ 31 := fun data hd =>
    lt_of_le_of_lt (hfile data hd) (by decide)
  refine ⟨fun argc s' hrun => ?_, fun new s₁ hprep => ?_⟩
  · obtain ⟨rfl, data, -, he⟩ := (succeeds_exec path h hshort hargs).result hrun
    refine ⟨rfl, by rw [he.regs], ?_, ?_, fun i hi => ?_, fun i j hj hij => ?_, ?_, ?_⟩
    · have := slot_aligned (lowest (imageOf data).withStack.sz argv) (8 * (argv.length + 1))
      rw [he.regs]
      show (slot (lowest (imageOf data).withStack.sz argv) (8 * (argv.length + 1))).toNat % 16 = 0
      omega
    · refine he.word ?_
      have hlen : argv.length = ((slots (imageOf data).withStack.sz argv).map Int.toNat).length := by
        rw [length_map, length_slots]
      rw [hlen, List.getElem?_concat_length]
    · obtain ⟨q, -, hw, h1, -, h2, h3⟩ := he.slot_spec hi
      rw [hw]
      exact ⟨h3, h1, h2⟩
    · obtain ⟨p, hp, hwp, -, hcp, -, -⟩ := he.slot_spec (hij.trans hj)
      obtain ⟨q, hq, hwq, -, hcq, -, -⟩ := he.slot_spec hj
      have := slots_disjoint argv hj hij hp hq
      omega
    · rw [he.sz, he.regs]
      exact he.fits.le.1
    · exact he.guard
  · obtain ⟨data, r, hdata, rfl, hp⟩ := (succeeds_prepare h hshort).result hprep
    obtain ⟨o, s', hfin, ho⟩ := succeeds_finish path h hp hargs
    refine ⟨o, s', ?_, ?_⟩
    · show (prepare im file s >>= _) = _
      rwa [hprep]
    · rcases ho with ⟨hfits, rfl, -⟩ | ⟨hno, rfl, -⟩
      · exact ⟨nofun, absurd hfits⟩
      · exact ⟨fun _ => hno, fun _ => rfl⟩

set_option maxRecDepth 20000 in
theorem exec_hands_over_arguments_sh : ∃ s s', Ready smallImage s ∧
    exec smallImage shPath (some tinyElf) shArgs s = .ok (some 2, s') ∧
    s'.proc.regs.sp % 16 = 0 ∧
    peek (phys s'.proc.pagetable) (wordAt s'.proc.pagetable s'.ram.mem s'.proc.regs.sp) 3 s'.ram.mem =
      [115, 104, 0] := by
  obtain ⟨s, s', hr, hrun⟩ := call_of_view (some tinyElf) shArgs (o := some 2) (by decide +kernel)
  have hfile : ∀ data, some tinyElf = some data → data.length ≤ MAXFILE * BSIZE := by
    intro data hd
    cases hd
    decide +kernel
  obtain ⟨hall, -⟩ := exec_hands_over_arguments smallImage s hr shPath (some tinyElf) hfile shArgs
    (by decide)
  obtain ⟨-, -, hal, -, hstr, -⟩ := hall 2 s' hrun
  exact ⟨s, s', hr, hrun, hal, (hstr 0 (by decide)).1⟩

/-! ## The segments -/

/-- The end of the last page of a segment. -/
def Proghdr.pagesEnd (ph : Proghdr) : Nat :=
  (ph.vaddr.toNat + ph.memsz.toNat + (PGSIZE - 1)) / PGSIZE * PGSIZE

/-- A segment is in the picture. -/
structure Holds (data : List UInt8) (x : Img) (ph : Proghdr) : Prop where
  size : ph.pagesEnd ≤ x.top
  bytes : peek id ph.vaddr.toNat ph.filesz.toNat x.byte =
    (data.drop ph.off.toNat).take ph.filesz.toNat
  zero : ∀ va, ph.vaddr.toNat + ph.filesz.toNat ≤ va → va < ph.pagesEnd → x.byte va = 0
  perm : ∀ va, ph.vaddr.toNat ≤ va → va < ph.pagesEnd →
    x.perm (va / PGSIZE) = userPerm (flags2perm ph.flags)

/-- Segments whose addresses are page-aligned, on pages of their own in ascending order,
and whose bytes are in the file. -/
structure Wellformed (data : List UInt8) : Prop where
  aligned : ∀ ph ∈ segmentsOf data, ph.vaddr.toNat % PGSIZE = 0
  ascending : (segmentsOf data).Pairwise fun ph ph' => ph.pagesEnd ≤ ph'.vaddr.toNat
  inside : ∀ ph ∈ segmentsOf data, ph.off.toNat + ph.filesz.toNat ≤ data.length

section

variable {ph ph' : Proghdr}

theorem Checked.end_le (h : Checked ph) : ph.vaddr.toNat + ph.filesz.toNat ≤ ph.pagesEnd := by
  have := h.filesz
  show _ ≤ (ph.vaddr.toNat + ph.memsz.toNat + 4095) / 4096 * 4096
  omega

/-- Outside the bytes of the segment nothing changes. -/
theorem load_byte {va : Nat} (h : va < ph'.vaddr.toNat ∨
      ph'.vaddr.toNat + ph'.filesz.toUInt32.toNat ≤ va) :
    (Img.load data x ph').byte va = x.byte va := by
  refine poke_frame _ _ fun i hi he => ?_
  rw [length_take] at hi
  have he : ph'.vaddr.toNat + i = va := he
  omega

theorem top_mono {x' : Img} (h : x.sz ≤ x'.sz) (hx' : x'.sz ≤ MAXVA) : x.top ≤ x'.top :=
  Nat.mul_le_mul_right _ (npages_mono hx' h)

/-- A segment stays when one on higher pages is loaded. -/
theorem Holds.load (h : Holds data x ph) (hc : Checked ph) (hup : ph.pagesEnd ≤ ph'.vaddr.toNat)
    (hsz : (Img.load data x ph').sz ≤ MAXVA) : Holds data (Img.load data x ph') ph := by
  have hend := hc.end_le
  refine ⟨h.size.trans (top_mono (le_max_left _ _) hsz), ?_, fun va h1 h2 => ?_, fun va h1 h2 => ?_⟩
  · rw [← h.bytes]
    exact peek_congr fun i hi => load_byte (.inl (by rw [id_eq]; omega))
  · rw [load_byte (.inl (by omega))]
    exact h.zero va h1 h2
  · have hi : va / PGSIZE < npages x.sz :=
      (Nat.div_lt_iff_lt_mul (by decide)).mpr (lt_of_lt_of_le h2 h.size)
    show (if va / PGSIZE < npages x.sz then _ else _) = _
    rw [if_pos hi]
    exact h.perm va h1 h2

theorem foldl_sz : ∀ (phs : List Proghdr) (x : Img), x.sz ≤ (phs.foldl (Img.load data) x).sz
  | [], _ => le_rfl
  | ph :: phs, x => (le_max_left x.sz _).trans (foldl_sz phs (Img.load data x ph))

theorem Holds.foldl : ∀ (phs : List Proghdr) {x : Img}, Holds data x ph → Checked ph →
    (∀ ph' ∈ phs, ph.pagesEnd ≤ ph'.vaddr.toNat) → (phs.foldl (Img.load data) x).sz ≤ MAXVA →
    Holds data (phs.foldl (Img.load data) x) ph
  | [], _, h, _, _, _ => h
  | ph' :: phs, x, h, hc, hup, hsz => by
    refine Holds.foldl phs (h.load hc (hup ph' (mem_cons_self ..)) ?_) hc
      (fun ph'' hph => hup ph'' (mem_cons_of_mem _ hph)) hsz
    exact (foldl_sz phs _).trans hsz

/-- A segment that is loaded above all there is. -/
theorem holds_load (hc : Checked ph) (hin : ph.off.toNat + ph.filesz.toNat ≤ data.length)
    (hdata : data.length < 2 ^ 32) (htop : x.top ≤ ph.vaddr.toNat)
    (hblank : ∀ va, x.top ≤ va → x.byte va = 0) (hsz : (Img.load data x ph).sz ≤ MAXVA) :
    Holds data (Img.load data x ph) ph ∧ (Img.load data x ph).top = ph.pagesEnd ∧
      ∀ va, (Img.load data x ph).top ≤ va → (Img.load data x ph).byte va = 0 := by
  have hend := hc.end_le
  have hx : x.sz ≤ x.top := size_le_top ((le_max_left _ _).trans hsz)
  have hmax : (Img.load data x ph).sz = ph.vaddr.toNat + ph.memsz.toNat := by
    show max x.sz (ph.vaddr + ph.memsz).toNat = _
    rw [hc.wrap]
    omega
  have hnew : (Img.load data x ph).top = ph.pagesEnd := by
    rw [Img.top, hmax, npages_eq (hmax ▸ hsz)]
    rfl
  have hfile : ph.filesz.toUInt32.toNat = ph.filesz.toNat := by
    exact Nat.mod_eq_of_lt (by omega)
  have hoff : ph.off.toUInt32.toNat = ph.off.toNat := by
    exact Nat.mod_eq_of_lt (by omega)
  refine ⟨⟨hnew.ge, ?_, fun va h1 h2 => ?_, fun va h1 h2 => ?_⟩, hnew, fun va hva => ?_⟩
  · have hlen : ((data.drop ph.off.toNat).take ph.filesz.toNat).length = ph.filesz.toNat := by
      rw [length_take, length_drop]
      omega
    have := peek_poke ph.vaddr.toNat ((data.drop ph.off.toNat).take ph.filesz.toNat) x.byte
      (Set.injOn_id _)
    rw [hlen] at this
    show peek id _ _ (poke id _ ((data.drop ph.off.toUInt32.toNat).take ph.filesz.toUInt32.toNat)
      x.byte) = _
    rw [hoff, hfile]
    exact this
  · rw [load_byte (.inr (by omega))]
    exact hblank va (by omega)
  · have hi : ¬ va / PGSIZE < npages x.sz := by
      rw [Nat.not_lt]
      exact (Nat.le_div_iff_mul_le (by decide)).mpr (htop.trans h1)
    exact if_neg hi
  · rw [hnew] at hva
    rw [load_byte (.inr (by omega))]
    exact hblank va (by omega)

end

/-- Segments on ascending pages are all in the picture at the end. -/
theorem holds_of_ascending (hdata : data.length < 2 ^ 32) (phs : List Proghdr)
    (hc : ∀ ph ∈ phs, Checked ph) (hin : ∀ ph ∈ phs, ph.off.toNat + ph.filesz.toNat ≤ data.length)
    (hasc : phs.Pairwise fun ph ph' => ph.pagesEnd ≤ ph'.vaddr.toNat)
    (htop : ∀ ph ∈ phs, x.top ≤ ph.vaddr.toNat) (hblank : ∀ va, x.top ≤ va → x.byte va = 0)
    (hsz : (phs.foldl (Img.load data) x).sz ≤ MAXVA) :
    ∀ ph ∈ phs, Holds data (phs.foldl (Img.load data) x) ph := by
  induction phs generalizing x with
  | nil => exact nofun
  | cons ph phs ih =>
    rw [pairwise_cons] at hasc
    have hmem : ph ∈ ph :: phs := mem_cons_self ..
    have hsz1 : (Img.load data x ph).sz ≤ MAXVA := (foldl_sz phs _).trans hsz
    obtain ⟨hnew, htop1, hblank1⟩ := holds_load (hc ph hmem) (hin ph hmem) hdata (htop ph hmem)
      hblank hsz1
    intro ph' hph'
    rcases mem_cons.mp hph' with rfl | hph'
    · exact hnew.foldl phs (hc ph' hmem) hasc.1 hsz
    · exact ih (fun ph h => hc ph (mem_cons_of_mem _ h))
        (fun ph h => hin ph (mem_cons_of_mem _ h)) hasc.2
        (fun ph h => htop1 ▸ hasc.1 ph h) hblank1 hsz ph' hph'

section

variable (h : Execed im s path data argv s')

include h

theorem Execed.holds (hdata : data.length ≤ MAXFILE * BSIZE) (hw : Wellformed data) {ph : Proghdr}
    (hph : ph ∈ segmentsOf data) : Holds data (imageOf data) ph := by
  have hempty : Img.empty.top = 0 := by decide
  refine holds_of_ascending (lt_of_le_of_lt hdata (by decide)) (segmentsOf data) h.checked hw.inside
    hw.ascending (fun ph _ => ?_) (fun va _ => ?_) (size_le_maxva h.size) ph hph
  · rw [hempty]
    exact Nat.zero_le _
  · rfl

/-- What the process has below its stack is the image. -/
theorem Execed.image {va : Nat} (hva : va < (imageOf data).top) :
    va < ((imageOf data).withStack.withArgs argv).top ∧
    byteAt s'.proc.pagetable s'.ram.mem va = (imageOf data).byte va ∧
    (s'.proc.pagetable.map (va / PGSIZE)).perm = (imageOf data).perm (va / PGSIZE) := by
  have hva' : va < npages (imageOf data).sz * 4096 := hva
  have hsz : (imageOf data).withStack.sz = (npages (imageOf data).sz + 3) * 4096 := withStack_sz _
  have hlt : va < ((imageOf data).withStack.withArgs argv).top := by
    rw [h.top_eq, hsz]
    exact lt_of_lt_of_le hva' (Nat.mul_le_mul_right _ (Nat.le_add_right _ 3))
  have hi : va / PGSIZE < npages (imageOf data).sz := (Nat.div_lt_iff_lt_mul (by decide)).mpr hva
  refine ⟨hlt, ?_, ?_⟩
  · rw [h.shows.byte va hlt, withArgs_below h.fits, withStack_byte]
    rw [hsz, ← Nat.sub_mul]
    exact lt_of_lt_of_le hva' (Nat.mul_le_mul_right _ (Nat.le_add_right _ 1))
  · rw [h.shows.perm _ (Built.page_lt hlt), withArgs_perm, withStack_perm h.size hi]

end

/-- A process that `exec` has started has, for every loadable segment of a well-formed
file, the bytes of the file, zeros after them up to the end of the page, and pages with the
permissions of the segment; it starts at the entry point, on its stack. -/
theorem exec_loads_image (im : Image) (s : Sys) (h : Ready im s) (path : CString) (data : List UInt8)
    (hdata : data.length ≤ MAXFILE * BSIZE) (hw : Wellformed data) (argv : List CString)
    (hargs : argv.length < MAXARG) (argc : Nat) (s' : Sys)
    (hrun : exec im path (some data) argv s = .ok (some argc, s')) :
    (∀ ph ∈ segmentsOf data,
      peek (phys s'.proc.pagetable) ph.vaddr.toNat ph.filesz.toNat s'.ram.mem =
        (data.drop ph.off.toNat).take ph.filesz.toNat ∧
      (∀ va, ph.vaddr.toNat + ph.filesz.toNat ≤ va → va < ph.pagesEnd →
        byteAt s'.proc.pagetable s'.ram.mem va = 0) ∧
      ∀ va, ph.vaddr.toNat ≤ va → va < ph.pagesEnd →
        User s'.proc.pagetable va ∧ (s'.proc.pagetable.leaf va).r = true ∧
        (s'.proc.pagetable.leaf va).w = (ph.flags &&& 2 != 0) ∧
        (s'.proc.pagetable.leaf va).x = (ph.flags &&& 1 != 0)) ∧
    s'.proc.regs.epc = (elfOf data).entry ∧
    s'.proc.regs.sp = (arrayAt s'.proc.sz argv).toNat ∧
    s'.proc.sz - USERSTACK * PGSIZE ≤ s'.proc.regs.sp ∧ s'.proc.regs.sp < s'.proc.sz := by
  have hshort : ∀ d, some data = some d → d.length < 2 ^ 31 := by
    intro d hd
    cases hd
    exact lt_of_le_of_lt hdata (by decide)
  obtain ⟨rfl, data', hd, he⟩ := (succeeds_exec path h hshort hargs).result hrun
  cases hd
  obtain ⟨hbase, harr, -⟩ := he.fits.le
  have hlow := lowest_le (imageOf data).withStack.sz argv
  refine ⟨fun ph hph => ?_, by rw [he.regs], by rw [he.regs, he.sz], by rwa [he.regs, he.sz],
    by rw [he.regs, he.sz]; show (arrayAt _ argv).toNat < _; omega⟩
  have hh := he.holds hdata hw hph
  have hend := (he.checked ph hph).end_le
  refine ⟨?_, fun va h1 h2 => ?_, fun va h1 h2 => ?_⟩
  · rw [← hh.bytes]
    exact peek_congr fun i hi => (he.image (lt_of_lt_of_le (by omega) hh.size)).2.1
  · rw [(he.image (lt_of_lt_of_le h2 hh.size)).2.1]
    exact hh.zero va h1 h2
  · obtain ⟨hlt, -, hperm⟩ := he.image (lt_of_lt_of_le h2 hh.size)
    rw [hh.perm va h1 h2] at hperm
    have hlow : va < MAXVA := by
      have hsmall : (imageOf data).withStack.sz ≤ 274877898752 := he.small
      rw [he.top_eq] at hlt
      show va < 274877906944
      omega
    have hpage := Built.page_lt hlt
    rw [withArgs_sz] at hpage
    have hv := (he.shape.user _ hpage).1.1
    rw [← leaf_eq_map hlow] at hv hperm
    have hu : (s'.proc.pagetable.leaf va).u = true := congrArg Perm.u hperm
    exact ⟨⟨hlow, Tbl.present_of_leaf hv, hv, hu⟩, congrArg Perm.r hperm, congrArg Perm.w hperm,
      congrArg Perm.x hperm⟩

theorem tinyElf_wellformed : Wellformed tinyElf where
  aligned := by decide +kernel
  ascending := by decide +kernel
  inside := by decide +kernel

set_option maxRecDepth 20000 in
theorem exec_loads_image_tiny : ∃ s s' ph, Ready smallImage s ∧
    exec smallImage shPath (some tinyElf) shArgs s = .ok (some 2, s') ∧ ph ∈ segmentsOf tinyElf ∧
    peek (phys s'.proc.pagetable) ph.vaddr.toNat ph.filesz.toNat s'.ram.mem =
      (tinyElf.drop ph.off.toNat).take ph.filesz.toNat ∧
    s'.proc.regs.epc = (elfOf tinyElf).entry := by
  obtain ⟨s, s', hr, hrun⟩ := call_of_view (some tinyElf) shArgs (o := some 2) (by decide +kernel)
  obtain ⟨hsegs, hentry, -⟩ := exec_loads_image smallImage s hr shPath tinyElf (by decide +kernel)
    tinyElf_wellformed shArgs (by decide) 2 s' hrun
  have hlen : 0 < (segmentsOf tinyElf).length := by decide +kernel
  have hmem := getElem_mem hlen
  exact ⟨s, s', _, hr, hrun, hmem, (hsegs _ hmem).1, hentry⟩

end Xv6.Exec
