/-
# `Xv6.Exec.Space` — a new address space and what it contains

The steps by which `exec` builds an address space, with the contents of its pages.
What they do to tables and to the allocator is known from `Xv6.Mem.VmSpec`: a program
on memory and the allocator that does the same to the allocator (`Projects`) inherits
that, and what is left to say is about memory.

Between the steps the pages of the new space all come from the free list that `exec`
found (`Built`), so a store to them changes nothing that anybody else can see; and
seen through the page table memory is an `Img`, the picture of the new program.
-/
import Xv6.Exec.Code
import Xv6.Mem.ExecSpec

namespace Xv6.Exec

open Machine Xv6.Mem Xv6.Vm Function Multiset

variable {im : Image} {e t tf : Nat} {r : Ram} {P : Multiset Nat} {m m' m'' : Phys}
  {bs : List UInt8} {c : UInt8} {xperm : Perm} {g : Option Nat}

/-! ## Memory outside a set of pages -/

/-- The memories differ in the pages `P` only. -/
def SameOff (P : Multiset Nat) (m m' : Phys) : Prop := ∀ a, PGROUNDDOWN a ∉ P → m' a = m a

namespace SameOff

theorem refl (P : Multiset Nat) (m : Phys) : SameOff P m m := fun _ _ => rfl

theorem trans (h : SameOff P m m') (h' : SameOff P m' m'') : SameOff P m m'' :=
  fun a ha => (h' a ha).trans (h a ha)

theorem mono {Q : Multiset Nat} (h : SameOff P m m') (hPQ : P ⊆ Q) : SameOff Q m m' :=
  fun a ha => h a fun hin => ha (hPQ hin)

theorem poke {tr : Nat → Nat} {va : Nat}
    (h : ∀ i < bs.length, PGROUNDDOWN (tr (va + i)) ∈ P) : SameOff P m (Machine.poke tr va bs m) := by
  intro a ha
  refine poke_frame bs m fun i hi he => ha ?_
  rw [← he]
  exact h i hi

end SameOff

variable {j mem oldsz newsz B va : Nat} {pt : Pgtbl}

theorem rounddown_add {pa : Nat} (hpa : pa % PGSIZE = 0) (hj : j < PGSIZE) :
    PGROUNDDOWN (pa + j) = pa := by
  have hpa : pa % 4096 = 0 := hpa
  have hj : j < 4096 := hj
  show (pa + j) / 4096 * 4096 = pa
  omega

theorem sameOff_memset (hal : mem % PGSIZE = 0) (hm : mem ∈ P) :
    SameOff P m (memset mem c PGSIZE m) := by
  unfold memset
  refine SameOff.poke fun i hi => ?_
  rw [List.length_replicate] at hi
  rwa [id_eq, rounddown_add hal hi]

theorem memset_get (hj : j < PGSIZE) : memset mem c PGSIZE m (mem + j) = c := by
  have hlen : j < (List.replicate PGSIZE c).length := by rwa [List.length_replicate]
  have := poke_get mem (List.replicate PGSIZE c) m (Set.injOn_id _) j hlen
  rw [List.getElem_replicate] at this
  unfold memset
  exact this

/-! ## Code on the allocator -/

section

variable {α : Type} {n : Kern α} {Q : α → Kmem → Prop}

theorem onKmem_projects (n : Kern α) : Projects Ram.kmem (onKmem n) n := by
  intro r
  show (n r.kmem >>= fun x => pure (x.1, Ram.mk x.2 r.mem)).map _ = n r.kmem
  cases n r.kmem <;> rfl

theorem yields_onKmem (h : Yields n r.kmem Q) :
    Yields (onKmem n) r fun a r' => r'.mem = r.mem ∧ Q a r'.kmem := by
  intro a r' hr
  have hr : (n r.kmem >>= fun x => pure (x.1, Ram.mk x.2 r.mem)) = .ok (a, r') := hr
  cases hn : n r.kmem with
  | error e =>
    rw [hn] at hr
    cases hr
  | ok x =>
    rw [hn] at hr
    cases hr
    exact ⟨rfl, h x.1 x.2 hn⟩

theorem succeeds_onKmem (h : Succeeds n r.kmem Q) :
    Succeeds (onKmem n) r fun a r' => r'.mem = r.mem ∧ Q a r'.kmem :=
  (((onKmem_projects n).succeeds h).and_yields (yields_onKmem h.yields)).mono fun _ _ h => h.2

end

/-! ## uvmalloc -/

theorem uvmallocFrom_projects (xperm : Perm) (oldsz newsz : Nat) : ∀ (c : Nat) (pt : Pgtbl) (a : Nat),
    Projects Ram.kmem (uvmallocFrom e t xperm oldsz newsz c pt a)
      (Mem.uvmallocFrom e t xperm oldsz newsz c pt a)
  | 0, _, _ => Projects.pure _
  | c + 1, pt, a => by
    refine (onKmem_projects (kalloc t)).bind fun o => ?_
    cases o with
    | none => exact (onKmem_projects _).bind fun _ => Projects.pure _
    | some mem =>
      refine Projects.write (fun _ => rfl) ((onKmem_projects _).bind fun ⟨ok, pt1⟩ => ?_)
      cases ok with
      | false =>
        exact (onKmem_projects _).bind fun _ => (onKmem_projects _).bind fun _ => Projects.pure _
      | true => exact uvmallocFrom_projects xperm oldsz newsz c pt1 (a + PGSIZE)

theorem uvmalloc_projects (pt : Pgtbl) (oldsz newsz : Nat) (xperm : Perm) :
    Projects Ram.kmem (uvmalloc e t pt oldsz newsz xperm) (Mem.uvmalloc e t pt oldsz newsz xperm) := by
  unfold uvmalloc Mem.uvmalloc
  split
  · exact Projects.pure _
  · exact uvmallocFrom_projects _ _ _ _ _ _

/-- The loop of `uvmalloc` at page `n`: it stores to pages that were free, and the
pages it maps are zero. -/
theorem yields_uvmallocFrom (hB : B ≤ MAXPAGE) (hnew : newsz ≠ 0) (c : Nat) {n : Nat}
    {r : Ram} (hroom : n + r.kmem.freelist.length ≤ B)
    (hfree : ∀ i, n ≤ i → i < B → pt.map i = Pte.zero)
    (hal : ∀ pa ∈ r.kmem.ledger.free + pt.tables, pa % PGSIZE = 0)
    (hnd : (r.kmem.ledger.free + pt.tables).Nodup) :
    Yields (uvmallocFrom e t xperm oldsz newsz c pt (n * PGSIZE)) r fun x r' =>
      SameOff (r.kmem.ledger.free + pt.tables) r.mem r'.mem ∧
      (x.1 = newsz → (∀ i < n, x.2.map i = pt.map i) ∧
        ∀ i, n ≤ i → i < n + c → ∀ j < PGSIZE, r'.mem ((x.2.map i).pa + j) = 0) := by
  induction c generalizing n pt r with
  | zero =>
    exact Yields.pure ⟨SameOff.refl _ _, fun _ => ⟨fun _ _ => rfl, fun i h1 h2 => by omega⟩⟩
  | succ c ih =>
    refine (yields_onKmem succeeds_kalloc.yields).seq fun o r1 ⟨hm1, ho⟩ => ?_
    cases o with
    | none =>
      refine (yields_onKmem fun _ _ _ => trivial).seq
        fun x r2 ⟨hm2, _⟩ => Yields.pure ⟨?_, fun h => absurd h.symm hnew⟩
      rw [hm2, hm1]
      exact SameOff.refl _ _
    | some mem =>
      obtain ⟨hin, hlen, hmv1⟩ := ho
      have hpool : mem ∈ r.kmem.ledger.free + pt.tables := mem_add.mpr (.inl hin)
      have hset : SameOff (r.kmem.ledger.free + pt.tables) r.mem (memset mem 0 PGSIZE r1.mem) := by
        rw [hm1]
        exact sameOff_memset (hal mem hpool) hpool
      have hlt : n < B := by
        omega
      refine Yields.write ((yields_onKmem (succeeds_mappages (lt_of_lt_of_le hlt hB)
        (by rw [hfree n le_rfl hlt]; rfl)).yields).seq fun x r2 ⟨hm2, hmv2, hlen2, hmap⟩ => ?_)
      obtain ⟨ok, pt2⟩ := x
      have hm2 : r2.mem = memset mem 0 PGSIZE r1.mem := hm2
      cases ok with
      | false =>
        refine (yields_onKmem fun _ _ _ => trivial).seq
          fun x r3 ⟨hm3, _⟩ => ?_
        refine (yields_onKmem fun _ _ _ => trivial).seq
          fun x r4 ⟨hm4, _⟩ => Yields.pure ⟨?_, fun h => absurd h.symm hnew⟩
        rwa [hm4, hm3, hm2]
      | true =>
        -- the page is none of those the rest of the loop can get
        have hsame := ((hmv1 pt.tables).trans (hmv2.cons mem)).same
        rw [add_cons] at hsame
        have hsub : r2.kmem.ledger.free + pt2.tables ⊆ r.kmem.ledger.free + pt.tables := by
          rw [← hsame]
          exact subset_cons _ _
        have hnd2 := hnd
        rw [← hsame, nodup_cons] at hnd2
        simp only [if_true] at hmap
        rw [← Nat.succ_mul]
        have hlen2 : r2.kmem.freelist.length ≤ r1.kmem.freelist.length := hlen2
        intro x r' hrun
        obtain ⟨hoff, hnew'⟩ := ih (by omega)
          (fun i h1 h2 => by rw [hmap, update_of_ne (by omega)]; exact hfree i (by omega) h2)
          (fun pa hpa => hal pa (hsub hpa)) hnd2.2 x r' hrun
        refine ⟨hset.trans (by rw [← hm2]; exact hoff.mono hsub), fun hx => ?_⟩
        obtain ⟨hold, hzero⟩ := hnew' hx
        refine ⟨fun i hi => ?_, fun i h1 h2 j hj => ?_⟩
        · rw [hold i (by omega), hmap, update_of_ne (by omega)]
        · rcases Nat.eq_or_lt_of_le h1 with rfl | h1
          · have hpa : (x.2.map n).pa = mem := by
              rw [hold n (by omega), hmap, update_self]
              rfl
            rw [hpa, hoff (mem + j) ?_, hm2]
            · exact memset_get hj
            · rw [rounddown_add (hal mem hpool) hj]
              exact hnd2.1
          · exact hzero i h1 (by omega) j hj

/-- How many rounds the loop has: one for every page up to the new size. -/
theorem rounds_eq (hle : oldsz ≤ newsz) (hnew : newsz ≤ MAXVA) :
    npages oldsz + (newsz - npages oldsz * PGSIZE + PGSIZE - 1) / PGSIZE =
      max (npages oldsz) (npages newsz) := by
  rw [npages_eq hnew, npages_eq (hle.trans hnew)]
  show (oldsz + 4095) / 4096 + (newsz - (oldsz + 4095) / 4096 * 4096 + 4096 - 1) / 4096 = _
  omega

/-- `uvmalloc`, and what it does to memory. -/
theorem succeeds_uvmalloc (hB : B ≤ MAXPAGE) (hroom : npages oldsz + r.kmem.freelist.length ≤ B)
    (hfree : ∀ i, npages oldsz ≤ i → i < B → pt.map i = Pte.zero) (hok : AllOk e r.kmem pt.tables)
    (hnd : (r.kmem.ledger.free + pt.tables).Nodup) :
    Succeeds (uvmalloc e t pt oldsz newsz xperm) r fun x r' =>
      Alloc t xperm r.kmem pt oldsz newsz r'.kmem x ∧
      SameOff (r.kmem.ledger.free + pt.tables) r.mem r'.mem ∧
      ∀ i, npages oldsz ≤ i → i < npages x.1 → ∀ j < PGSIZE, r'.mem ((x.2.map i).pa + j) = 0 := by
  have hmem : Yields (uvmalloc e t pt oldsz newsz xperm) r fun x r' =>
      SameOff (r.kmem.ledger.free + pt.tables) r.mem r'.mem ∧
      (oldsz ≤ newsz → x.1 = newsz → newsz ≠ 0 → ∀ i, npages oldsz ≤ i →
        i < npages oldsz + (newsz - npages oldsz * PGSIZE + PGSIZE - 1) / PGSIZE →
        ∀ j < PGSIZE, r'.mem ((x.2.map i).pa + j) = 0) := by
    unfold uvmalloc
    split
    · exact Yields.pure ⟨SameOff.refl _ _, fun hle => by omega⟩
    · by_cases h0 : newsz = 0
      · obtain rfl : oldsz = 0 := by omega
        subst h0
        exact Yields.pure ⟨SameOff.refl _ _, fun _ _ h => absurd rfl h⟩
      · rw [pgroundup_eq]
        intro x r' hrun
        obtain ⟨hoff, hnew⟩ := yields_uvmallocFrom hB h0 _ hroom hfree
          (fun pa hpa => (hok pa hpa).1) hnd x r' hrun
        exact ⟨hoff, fun _ hx _ => (hnew hx).2⟩
  refine (((uvmalloc_projects pt oldsz newsz xperm).succeeds
    (Mem.succeeds_uvmalloc hB hroom hfree hok)).and_yields hmem).mono
    fun x r' ⟨halloc, hoff, hzero⟩ => ⟨halloc, hoff, fun i h1 h2 => ?_⟩
  generalize r'.kmem = k' at halloc
  cases halloc with
  | same hlt =>
    have h2 : i < npages oldsz := h2
    omega
  | fail =>
    have h2 : i < npages 0 := h2
    exact absurd h2 (Nat.not_lt_zero i)
  | done hle hmax =>
    have h2 : i < npages newsz := h2
    have hne : newsz ≠ 0 := by
      rintro rfl
      exact absurd h2 (Nat.not_lt_zero i)
    refine hzero hle rfl hne i h1 ?_
    rw [rounds_eq hle hmax]
    exact lt_max_of_lt_right h2

/-! ## Pictures -/

/-- The picture of an address space: its size, the permissions of its pages and its
bytes. -/
structure Img where
  sz : Nat
  perm : Nat → Perm
  byte : Nat → UInt8

/-- Where the last page ends. -/
def Img.top (x : Img) : Nat := npages x.sz * PGSIZE

/-- Up to `newsz` there are pages; new ones have the permissions `uvmalloc` gives. -/
def Img.grow (x : Img) (newsz : Nat) (xperm : Perm) : Img :=
  ⟨max x.sz newsz, fun i => if i < npages x.sz then x.perm i else userPerm xperm, x.byte⟩

def Img.store (x : Img) (va : Nat) (bs : List UInt8) : Img := ⟨x.sz, x.perm, poke id va bs x.byte⟩

/-- What the page table shows of memory is the picture. -/
structure Shows (pt : Pgtbl) (m : Phys) (x : Img) : Prop where
  perm : ∀ i < npages x.sz, (pt.map i).perm = x.perm i
  byte : ∀ va < x.top, byteAt pt m va = x.byte va

/-- A space that `exec`, called with `k₀` and `m₀`, has built so far. -/
structure Built (im : Image) (t tf : Nat) (k₀ : Kmem) (m₀ : Phys) (r : Ram) (pt : Pgtbl) (x : Img)
    (g : Option Nat) : Prop where
  space : Space im r.kmem pt tf x.sz g
  moves : Moves t k₀.ledger 0 r.kmem.ledger (owned pt x.sz)
  same : SameOff k₀.ledger.free m₀ r.mem
  shows : Shows pt r.mem x
  blank : ∀ va, x.top ≤ va → x.byte va = 0

section
variable (h : va < MAXVA)
include h

theorem leaf_eq_map : pt.leaf va = pt.map (va / PGSIZE) := by
  have hlt : va / PGSIZE < VPAGES := by
    have h : va < 274877906944 := h
    show va / 4096 < 134217728
    omega
  have hpage : va / PGSIZE = va / PGSIZE * PGSIZE / PGSIZE := (Nat.mul_div_cancel _ (by decide)).symm
  rw [Tbl.map_eq pt hlt, Tbl.leaf_congr pt (same_of_page hpage)]

/-- Where an address is, from the entry of its page. -/
theorem phys_eq : phys pt va = (pt.map (va / PGSIZE)).pa + va % PGSIZE := by
  rw [phys, leaf_eq_map h]

theorem phys_congr {pt' : Pgtbl}
    (hm : pt'.map (va / PGSIZE) = pt.map (va / PGSIZE)) : phys pt' va = phys pt va := by
  rw [phys_eq h, phys_eq h, hm]

end

/-- Above the pages of a space there are the trapframe and the trampoline. -/
theorem user_lt {n : Nat} (h : Shape im pt tf n g) (hu : User pt va) : va / PGSIZE < n := by
  have hv := hu.v
  have hbit := hu.u
  rw [leaf_eq_map hu.low] at hv hbit
  by_contra hle
  by_cases h1 : va / PGSIZE = TFPAGE
  · rw [h1, h.trapframe] at hbit
    cases hbit
  by_cases h2 : va / PGSIZE = TRPAGE
  · rw [h2, h.trampoline] at hbit
    cases hbit
  rw [h.rest _ (Nat.not_lt.mp hle) h1 h2] at hv
  cases hv

/-- The page that an address of a space is in. -/
theorem rounddown_phys {k : Kmem} {sz : Nat} (h : Space im k pt tf sz g)
    (hva : va < npages sz * PGSIZE) : PGROUNDDOWN (phys pt va) = (pt.map (va / PGSIZE)).pa := by
  have hi : va / PGSIZE < npages sz := (Nat.div_lt_iff_lt_mul (by decide)).mpr hva
  have hmax : va < MAXVA := by
    have hroom : npages sz ≤ 67108862 := h.shape.room
    have hva : va < npages sz * 4096 := hva
    show va < 274877906944
    omega
  rw [phys_eq hmax]
  refine rounddown_add ?_ (Nat.mod_lt _ (by decide))
  exact (h.ok.right.held (mem_frames (Nat.zero_le _) (by omega))).1

namespace Built

variable {k₀ : Kmem} {m₀ : Phys} {pt pt' : Pgtbl} {x : Img} {g g' : Option Nat} {va : Nat}

theorem top_le (h : Built im t tf k₀ m₀ r pt x g) : x.top ≤ MAXVA := by
  have hroom : npages x.sz ≤ 67108862 := h.space.shape.room
  show npages x.sz * 4096 ≤ 274877906944
  omega

theorem page_lt (hva : va < x.top) : va / PGSIZE < npages x.sz :=
  (Nat.div_lt_iff_lt_mul (by decide)).mpr hva

section
variable (h : Built im t tf k₀ m₀ r pt x g)
include h

/-- The user may access the pages of the picture that have `PTE_U`. -/
theorem user_iff : User pt va ↔ va < x.top ∧ (x.perm (va / PGSIZE)).u = true := by
  constructor
  · intro hu
    have hbit := hu.u
    rw [leaf_eq_map hu.low] at hbit
    have hi := user_lt h.space.shape hu
    exact ⟨(Nat.div_lt_iff_lt_mul (by decide)).mp hi, by rwa [← h.shows.perm _ hi]⟩
  · rintro ⟨hva, hbit⟩
    have hlow : va < MAXVA := lt_of_lt_of_le hva h.top_le
    have hv := (h.space.shape.user _ (page_lt hva)).1.1
    rw [← h.shows.perm _ (page_lt hva)] at hbit
    rw [← leaf_eq_map hlow] at hv hbit
    exact ⟨hlow, Tbl.present_of_leaf hv, hv, hbit⟩

theorem writable_iff :
    Writable pt va ↔ va < x.top ∧
      (x.perm (va / PGSIZE)).u = true ∧ (x.perm (va / PGSIZE)).w = true := by
  have hw : ∀ hva : va < x.top, (pt.leaf va).w = (x.perm (va / PGSIZE)).w := fun hva => by
    rw [leaf_eq_map (lt_of_lt_of_le hva h.top_le), ← h.shows.perm _ (page_lt hva)]
    rfl
  constructor
  · intro hwr
    obtain ⟨hva, hu⟩ := h.user_iff.mp hwr.toUser
    exact ⟨hva, hu, (hw hva).symm.trans hwr.w⟩
  · rintro ⟨hva, hu, hbit⟩
    exact ⟨h.user_iff.mpr ⟨hva, hu⟩, (hw hva).trans hbit⟩

theorem total : r.kmem.ledger.free + owned pt x.sz = k₀.ledger.free := by
  have := h.moves.same
  rwa [add_zero] at this

end

theorem frame_mem {i : Nat} (hi : i < npages x.sz) : (pt.map i).pa ∈ owned pt x.sz :=
  mem_add.mpr (.inr (mem_frames (Nat.zero_le i) (by omega)))

theorem page_mem (h : Built im t tf k₀ m₀ r pt x g) (hva : va < x.top) :
    PGROUNDDOWN (phys pt va) ∈ k₀.ledger.free := by
  rw [rounddown_phys h.space hva, ← h.total]
  exact mem_add.mpr (.inr (frame_mem (page_lt hva)))

section

variable (hnd : k₀.ledger.free.Nodup)

include hnd

section
variable (h : Built im t tf k₀ m₀ r pt x g)
include h

theorem nodup : (r.kmem.ledger.free + owned pt x.sz).Nodup := by
  rwa [h.total]

/-- No two addresses share a byte. -/
theorem injOn : Set.InjOn (phys pt) (Set.Iio x.top) := by
  intro va hva vb hvb he
  have hfr : (frames pt.map 0 (npages x.sz)).Nodup :=
    (nodup_add.mp (nodup_add.mp (h.nodup hnd)).2.1).2.1
  have hpage : va / PGSIZE = vb / PGSIZE := by
    have := congrArg PGROUNDDOWN he
    rw [rounddown_phys h.space hva, rounddown_phys h.space hvb] at this
    have hi := page_lt hva
    have hj := page_lt hvb
    exact frames_inj hfr (Nat.zero_le _) (by omega) (Nat.zero_le _) (by omega) this
  rw [phys_eq (lt_of_lt_of_le hva h.top_le), phys_eq (lt_of_lt_of_le hvb h.top_le), hpage] at he
  have hoff : va % 4096 = vb % 4096 := Nat.add_left_cancel he
  have hpage : va / 4096 = vb / 4096 := hpage
  omega

/-- A store through the page table. -/
theorem poke (hin : ∀ i < bs.length, va + i < x.top) :
    Built im t tf k₀ m₀ ⟨r.kmem, Machine.poke (phys pt) va bs r.mem⟩ pt (x.store va bs) g where
  space := h.space
  moves := h.moves
  same := h.same.trans (SameOff.poke fun i hi => h.page_mem (hin i hi))
  shows :=
    { perm := h.shows.perm
      byte := fun vb hvb => by
        have := poke_view (h.injOn hnd) bs r.mem hin hvb
        exact this.trans (poke_agree bs h.shows.byte hvb) }
  blank := fun vb hvb => by
    refine (poke_frame bs x.byte fun i hi he => ?_).trans (h.blank vb hvb)
    have := hin i hi
    have he : va + i = vb := he
    have hvb : x.top ≤ vb := hvb
    omega

/-- Stores to free pages and to page tables do not show. -/
theorem kept (hoff : SameOff (r.kmem.ledger.free + pt.tables) r.mem m)
    (hmap : ∀ i < npages x.sz, pt'.map i = pt.map i) (hva : va < x.top) :
    byteAt pt' m va = x.byte va := by
  have hi := page_lt hva
  rw [← h.shows.byte va hva, byteAt, byteAt,
    phys_congr (lt_of_lt_of_le hva h.top_le) (hmap _ hi)]
  refine hoff _ ?_
  rw [rounddown_phys h.space hva]
  have hnd' := h.nodup hnd
  unfold owned at hnd'
  rw [← add_assoc] at hnd'
  exact fun hin => disjoint_left.mp (nodup_add.mp hnd').2.2 hin
    (mem_frames (Nat.zero_le _) (by omega))

end

end

end Built

/-! ## Growing -/

/-- `uvmalloc` lets the picture grow, or leaves it and returns 0. -/
theorem succeeds_grow {k₀ : Kmem} {m₀ : Phys} {x : Img}
    (hnd : k₀.ledger.free.Nodup) (h : Built im t tf k₀ m₀ r pt x g) :
    Succeeds (uvmalloc im.kend t pt x.sz newsz xperm) r fun y r' =>
      y.1 = 0 ∧ Built im t tf k₀ m₀ r' y.2 x g ∨
      y.1 ≠ 0 ∧ y.1 = max x.sz newsz ∧ Built im t tf k₀ m₀ r' y.2 (x.grow newsz xperm) g := by
  have hB : TFPAGE ≤ MAXPAGE := by decide
  have hnd1 : (r.kmem.ledger.free + pt.tables).Nodup := by
    have := h.nodup hnd
    unfold owned at this
    rw [← add_assoc] at this
    exact (nodup_add.mp this).1
  have hsub : r.kmem.ledger.free + pt.tables ⊆ k₀.ledger.free := by
    rw [← h.total]
    unfold owned
    rw [← add_assoc]
    exact subset_of_le (le_add_right _ _)
  refine ((succeeds_uvmalloc hB h.space.npages_le
    (fun i => h.space.shape.zero_above) h.space.ok.left hnd1).and
    ((uvmalloc_projects pt x.sz newsz xperm).succeeds (Mem.succeeds_grow h.space))).mono ?_
  rintro ⟨sz, pt'⟩ r' ⟨⟨halloc, hoff, hzero⟩, hgrown⟩
  have hsame : SameOff k₀.ledger.free m₀ r'.mem := h.same.trans (hoff.mono hsub)
  unfold GrownSpace at hgrown
  -- where the entries of the old pages are what they were
  have hold : ∀ i < npages x.sz, pt'.map i = pt.map i := by
    intro i hi
    generalize r'.kmem = k' at halloc
    cases halloc with
    | same => rfl
    | fail hmap => rw [hmap]
    | done _ _ hadds => exact hadds.old i (.inl hi)
  by_cases h0 : sz = 0
  · rw [if_pos h0] at hgrown
    refine .inl ⟨h0, hgrown.1, h.moves.trans hgrown.2, hsame, ⟨fun i hi => ?_, fun va hva => ?_⟩,
      h.blank⟩
    · rw [hold i hi]
      exact h.shows.perm i hi
    · exact h.kept hnd hoff hold hva
  · rw [if_neg h0] at hgrown
    obtain ⟨hsp, hmv, hmax⟩ := hgrown
    subst hmax
    have hle : npages x.sz ≤ npages (max x.sz newsz) :=
      npages_mono (size_le_maxva hsp.size) (le_max_left _ _)
    have htop : x.top ≤ npages (max x.sz newsz) * PGSIZE := Nat.mul_le_mul_right _ hle
    refine .inr ⟨h0, rfl, hsp, h.moves.trans hmv, hsame, ⟨fun i hi => ?_, fun va hva => ?_⟩,
      fun va hva => h.blank va (htop.trans hva)⟩
    · show _ = if i < npages x.sz then x.perm i else userPerm xperm
      have hi : i < npages (max x.sz newsz) := hi
      split
      · rename_i hlt
        rw [hold i hlt]
        exact h.shows.perm i hlt
      · rename_i hge
        generalize r'.kmem = k' at halloc
        generalize hsz : max x.sz newsz = sz at halloc hi
        cases halloc with
        | same => omega
        | fail => exact absurd hsz h0
        | done _ _ hadds =>
          obtain ⟨pa, hpa⟩ := hadds.new i (by omega) (by omega)
          rw [hpa]
          rfl
    · show _ = x.byte va
      by_cases hlt : va < x.top
      · exact h.kept hnd hoff hold hlt
      · have hsz : max x.sz newsz ≤ MAXVA := size_le_maxva hsp.size
        have hmaxva : va < MAXVA := by
          have hroom : npages (max x.sz newsz) ≤ 67108862 := hsp.shape.room
          have hva : va < npages (max x.sz newsz) * 4096 := hva
          show va < 274877906944
          omega
        rw [h.blank va (Nat.not_lt.mp hlt), byteAt, phys_eq hmaxva]
        refine hzero _ ?_ ((Nat.div_lt_iff_lt_mul (by decide)).mpr hva) _ (Nat.mod_lt _ (by decide))
        exact (Nat.le_div_iff_mul_le (by decide)).mpr (Nat.not_lt.mp hlt)

end Xv6.Exec
