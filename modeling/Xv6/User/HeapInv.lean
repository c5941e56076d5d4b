/-
# `Xv6.User.HeapInv` — the heap stays intact

The units of the live blocks and of the free list are, together, the units that came
from `sbrk`.  That one invariant says that the blocks are disjoint, that they lie in
memory from `sbrk`, and that nothing is lost; the order of the free list is what
`Xv6.User.FreeList` keeps.

Two things are not true of every `sbrk`.  The blocks are aligned as the regions are;
and a `uint` cannot count the units of a block of 2^32 units or more.

**Proved here.**

  * the heap is intact in every state of every run (`heap_integrity`)
  * a region at an odd address gives a block at an odd address (`malloc_unaligned`)
-/
import Mathlib.Data.List.Pairwise
import Mathlib.Data.List.Nodup
import Xv6.User.FreeList

namespace Xv6.Umalloc

open Machine Function List

/-! ## Units and regions -/

/-- The two do not overlap. -/
def Region.Apart (x y : Region) : Prop := x.stop ≤ y.addr ∨ y.stop ≤ x.addr

instance : Std.Symm Region.Apart := ⟨fun _ _ => Or.symm⟩

variable {base : Nat} {rs ps : List Region} {c n nbytes : Nat} {b : Block} {a : Act}

theorem mem_cells_list : c ∈ cells rs ↔ ∃ r ∈ rs, c ∈ r.cells := mem_flatMap

theorem cell_bounds {r : Region} (h : c ∈ r.cells) : r.addr ≤ c ∧ c + 16 ≤ r.stop := by
  obtain ⟨k, hk, rfl⟩ := mem_cells.mp h
  rw [Region.stop]
  omega

section
variable (hrs : rs.Pairwise fun x y => x.stop ≤ y.addr)
include hrs

/-- Units of regions are 16 bytes apart. -/
theorem cells_spaced {d : Nat}
    (hc : c ∈ cells rs) (hd : d ∈ cells rs) (hle : c ≤ d) (hlt : d < c + 16) : c = d := by
  obtain ⟨x, hx, hcx⟩ := mem_cells_list.mp hc
  obtain ⟨y, hy, hdy⟩ := mem_cells_list.mp hd
  have hcb := cell_bounds hcx
  have hdb := cell_bounds hdy
  by_cases hxy : x = y
  · subst hxy
    obtain ⟨i, -, rfl⟩ := mem_cells.mp hcx
    obtain ⟨j, -, rfl⟩ := mem_cells.mp hdy
    omega
  · have hap : rs.Pairwise Region.Apart := hrs.imp .inl
    rcases hap.forall hx hy hxy with h | h <;> omega

theorem nodup_cells : (cells rs).Nodup := by
  refine nodup_flatMap.mpr ⟨fun r _ => ?_, hrs.imp fun {x y} hxy c hcx hcy => ?_⟩
  · refine nodup_range.map fun i j hij => ?_
    omega
  · have := cell_bounds hcx
    have := cell_bounds hcy
    omega

/-- Blocks made of different units of the regions do not overlap. -/
theorem pairwise_apart (hperm : (cells ps).Perm (cells rs)) (hpos : ∀ p ∈ ps, 0 < p.units) :
    ps.Pairwise Region.Apart := by
  have hdisj := (nodup_flatMap.mp (hperm.nodup_iff.mpr (nodup_cells hrs))).2
  have hcell : ∀ {p : Region} {c : Nat}, p ∈ ps → c ∈ p.cells → c ∈ cells rs := fun hp hc =>
    hperm.mem_iff.mp (mem_cells_list.mpr ⟨_, hp, hc⟩)
  -- of two blocks that overlap, the lower has a unit where the upper begins
  have hover : ∀ {x y : Region}, x ∈ ps → y ∈ ps → x.addr ≤ y.addr → y.addr < x.stop →
      y.addr ∈ x.cells := by
    intro x y hx hy hle hlt
    rw [Region.stop] at hlt
    have hk : x.addr + 16 * ((y.addr - x.addr) / 16) ∈ x.cells :=
      mem_cells.mpr ⟨(y.addr - x.addr) / 16, by omega, rfl⟩
    have heq := cells_spaced hrs (hcell hx hk) (hcell hy (addr_mem_cells (hpos y hy)))
      (by omega) (by omega)
    exact heq ▸ hk
  refine List.Pairwise.imp_of_mem (fun {x y} hx hy hd => ?_) hdisj
  by_contra hno
  rw [Region.Apart, not_or] at hno
  rcases Nat.le_total x.addr y.addr with hle | hle
  · exact hd (hover hx hy hle (by omega)) (addr_mem_cells (hpos y hy))
  · exact hd (addr_mem_cells (hpos x hx)) (hover hy hx hle (by omega))

end

/-- Every byte of a block made of units of the regions lies in a region. -/
theorem byte_inside (hperm : (cells ps).Perm (cells rs)) {p : Region} (hp : p ∈ ps) {i : Nat}
    (hlo : p.addr ≤ i) (hhi : i < p.stop) : ∃ r ∈ rs, r.addr ≤ i ∧ i < r.stop := by
  rw [Region.stop] at hhi
  have hk : p.addr + 16 * ((i - p.addr) / 16) ∈ p.cells :=
    mem_cells.mpr ⟨(i - p.addr) / 16, by omega, rfl⟩
  obtain ⟨r, hr, hc⟩ := mem_cells_list.mp (hperm.mem_iff.mp (mem_cells_list.mpr ⟨p, hp, hk⟩))
  have := cell_bounds hc
  exact ⟨r, hr, by omega, by omega⟩

/-! ## The invariant -/

def Block.region (b : Block) : Region := ⟨b.addr, b.units⟩

/-- The live blocks as regions. -/
def Sys.blocks (s : Sys) : List Region := s.live.map Block.region

structure Inv (base : Nat) (s : Sys) (fs : List Region) : Prop where
  list : FreeList base s.heap fs
  cells : (cells (s.blocks ++ fs)).Perm (cells s.regions)
  size : ∀ b ∈ s.live, s.heap.size b.addr = b.units
  pos : ∀ b ∈ s.live, 0 < b.units
  enough : ∀ b ∈ s.live, b.nbytes + 16 ≤ 16 * b.units
  ordered : s.regions.Pairwise fun x y => x.stop ≤ y.addr
  above : ∀ r ∈ s.regions, base + 16 ≤ r.addr
  count : total s.regions < 2 ^ 32

variable {s t : Sys} {fs : List Region}

section
variable (hi : Inv base s fs)
include hi

theorem Inv.apart : (s.blocks ++ fs).Pairwise Region.Apart := by
  refine pairwise_apart hi.ordered hi.cells (forall_mem_append.mpr ⟨?_, hi.list.pos⟩)
  exact forall_mem_map.mpr hi.pos

theorem Inv.total_eq : total s.blocks + total fs = total s.regions := by
  have := hi.cells.length_eq
  rwa [length_cells, length_cells, total_append] at this

/-- The units of different blocks are different. -/
theorem Inv.disjoint : (s.blocks ++ fs).Pairwise fun x y => List.Disjoint x.cells y.cells :=
  (nodup_flatMap.mp (hi.cells.nodup_iff.mpr (nodup_cells hi.ordered))).2

theorem Inv.above_base (hb : b ∈ s.live) : base + 16 ≤ b.addr := by
  have hmem : b.region ∈ s.blocks ++ fs := mem_append_left _ (mem_map_of_mem hb)
  have hpos := hi.pos b hb
  obtain ⟨r, hr, hle, -⟩ := byte_inside hi.cells hmem le_rfl
    (by rw [Region.stop]; show b.addr < b.addr + 16 * b.units; omega)
  exact (hi.above r hr).trans hle

end

/-- The headers of the free list are what matters of the memory. -/
theorem FreeList.congr {h h' : Heap} (hf : FreeList base h fs) (hfreep : h'.freep = h.freep)
    (heq : ∀ a ∈ base :: fs.map Region.addr, h'.ptr a = h.ptr a ∧ h'.size a = h.size a) :
    FreeList base h' fs where
  links := hf.links.congr fun a ha => (heq a ha).1
  size r hr := by
    rw [(heq r.addr (mem_cons_of_mem _ (mem_map_of_mem hr))).2]
    exact hf.size r hr
  pos := hf.pos
  base_size := by
    rw [(heq base mem_cons_self).2]
    exact hf.base_size
  apart := hf.apart
  above := hf.above
  freep := hfreep ▸ hf.freep

/-! ## Steps -/

/-- The program stores into its own block. -/
theorem Inv.store (hi : Inv base s fs) {a : Nat} (hb : b ∈ s.live)
    (ha : b.inside a) (ptr size : Nat) :
    Inv base { s with heap := { s.heap with ptr := update s.heap.ptr a ptr,
                                            size := update s.heap.size a size } } fs := by
  obtain ⟨halt, hagt⟩ := ha
  have hapart := hi.apart
  have hbmem : b.region ∈ s.blocks ++ fs := mem_append_left _ (mem_map_of_mem hb)
  -- no other block begins inside
  have hne : ∀ r ∈ s.blocks ++ fs, 0 < r.units → r.addr ≠ a := by
    intro r hr hpos he
    by_cases hrb : r = b.region
    · rw [hrb] at he
      have : b.addr = a := he
      omega
    · have := hapart.forall hr hbmem hrb
      simp only [Region.Apart, Region.stop, Block.region] at this
      omega
  have hbase := hi.above_base hb
  refine ⟨hi.list.congr rfl ?_, hi.cells, fun c hc => ?_, hi.pos, hi.enough, hi.ordered, hi.above,
    hi.count⟩
  · refine forall_mem_cons.mpr ⟨?_, forall_mem_map.mpr fun r hr => ?_⟩
    · exact ⟨update_of_ne (by omega) .., update_of_ne (by omega) ..⟩
    · have := hne r (mem_append_right _ hr) (hi.list.pos r hr)
      exact ⟨update_of_ne this .., update_of_ne this ..⟩
  · have hc' := hne c.region (mem_append_left _ (mem_map_of_mem hc)) (hi.pos c hc)
    exact (update_of_ne hc' ..).trans (hi.size c hc)

theorem filter_ne_addr {live : List Block} {l r : List Block} (heq : live = l ++ b :: r)
    (hne : ∀ c ∈ l ++ r, c.addr ≠ b.addr) : live.filter (·.addr + 16 ≠ b.addr + 16) = l ++ r := by
  rw [heq, filter_append, filter_cons_of_neg (by simp), ← filter_append]
  refine filter_eq_self.mpr fun c hc => ?_
  have := hne c hc
  simp only [ne_eq, decide_not, Bool.not_eq_true', decide_eq_false_iff_not]
  omega

/-- A live block is freed. -/
theorem Inv.free (hi : Inv base s fs) (hb : b ∈ s.live) (hn : total s.regions < n) :
    ∃ h' fs', free n (b.addr + 16) s.heap = some h' ∧
      Inv base { s with heap := h', live := s.live.filter (·.addr + 16 ≠ b.addr + 16) } fs' := by
  obtain ⟨l, r, heq⟩ := append_of_mem hb
  have hblocks : s.blocks = l.map Block.region ++ b.region :: r.map Block.region := by
    rw [Sys.blocks, heq, map_append, map_cons]
  have htotal := hi.total_eq
  have hlen := hi.list.length_le
  -- the block comes first
  have hperm : (s.blocks ++ fs).Perm (b.region :: ((l ++ r).map Block.region ++ fs)) := by
    rw [hblocks, map_append, append_assoc, append_assoc, cons_append]
    exact perm_middle
  obtain ⟨hbapart, -⟩ := pairwise_cons.mp ((hperm.pairwise_iff Or.symm).mp hi.apart)
  have hsymm : ∀ {x y : Region}, List.Disjoint x.cells y.cells → List.Disjoint y.cells x.cells := by
    intro x y h c hy hx
    exact h hx hy
  obtain ⟨hbdisj, hdisj⟩ := pairwise_cons.mp ((hperm.pairwise_iff hsymm).mp hi.disjoint)
  have hgap : ∀ x ∈ fs, x.stop ≤ b.region.addr ∨ b.region.stop ≤ x.addr := fun x hx =>
    (hbapart x (mem_append_right _ hx)).symm
  have hsum : b.region.units + total fs < 2 ^ 32 := by
    have := hi.count
    rw [hblocks, total_append] at htotal
    simp only [total, map_cons, sum_cons] at htotal this ⊢
    omega
  have hother : ∀ c ∈ l ++ r, c ∈ s.live := fun c hc => by
    rw [heq]
    rcases mem_append.mp hc with hc | hc
    · exact mem_append_left _ hc
    · exact mem_append_right _ (mem_cons_of_mem _ hc)
  have hcaddr : ∀ c ∈ l ++ r, c.addr ∈ c.region.cells := fun c hc =>
    addr_mem_cells (hi.pos c (hother c hc))
  have hcell : ∀ c ∈ l ++ r, c.addr ∉ b.region.cells ∧ c.addr ∉ Umalloc.cells fs := by
    intro c hc
    have hcmem := mem_map_of_mem (f := Block.region) hc
    refine ⟨fun hm => hbdisj _ (mem_append_left _ hcmem) hm (hcaddr c hc), fun hm => ?_⟩
    obtain ⟨x, hx, hcx⟩ := mem_cells_list.mp hm
    exact (pairwise_append.mp hdisj).2.2 _ hcmem x hx (hcaddr c hc) hcx
  obtain ⟨h', fs', hfree, hlist, hcells, hframe, -⟩ := free_spec hi.list
    (hi.size b hb) (hi.pos b hb) (hi.above_base hb) hgap hsum (by omega : fs.length < n)
  refine ⟨h', fs', hfree, ?_⟩
  rw [filter_ne_addr heq fun c hc he =>
    (hcell c hc).1 (he ▸ addr_mem_cells (hi.pos b hb))]
  refine ⟨hlist, ?_, fun c hc => ?_, fun c hc => hi.pos c (hother c hc),
    fun c hc => hi.enough c (hother c hc), hi.ordered, hi.above, hi.count⟩
  · refine List.Perm.trans ?_ hi.cells
    refine List.Perm.trans ?_ (hperm.flatMap_right Region.cells).symm
    show (Umalloc.cells ((l ++ r).map Block.region ++ fs')).Perm
      (b.region.cells ++ Umalloc.cells ((l ++ r).map Block.region ++ fs))
    rw [cells_append, cells_append]
    exact (hcells.append_left _).trans (perm_append_comm_assoc ..)
  · rw [hframe c.addr (hcell c hc).1 (hcell c hc).2]
    exact hi.size c (hother c hc)

theorem unitsFor_spec (h : nbytes < 2 ^ 32) :
    0 < unitsFor nbytes ∧ nbytes + 16 ≤ 16 * unitsFor nbytes := by
  rw [unitsFor]
  omega

/-- A call of `malloc`, on a list that exists. -/
theorem Inv.malloc (hi : Inv base s fs) {answer : Option Nat}
    (hbytes : nbytes < 2 ^ 32) (hfresh : ∀ a ∈ answer, Fresh base s (moreUnits (unitsFor nbytes)) a)
    (hcount : answer ≠ none → total s.regions + moreUnits (unitsFor nbytes) < 2 ^ 32)
    (hn : total s.regions + moreUnits (unitsFor nbytes) < n) :
    mallocLoop n (unitsFor nbytes) [answer] s.heap.freep s.heap [] = some (s.heap, 0, []) ∨
    ∃ h' fs' ap got,
      mallocLoop n (unitsFor nbytes) [answer] s.heap.freep s.heap [] = some (h', ap, got) ∧
      ap ≠ 0 ∧ Inv base { heap := h', live := s.live ++ [⟨ap - 16, unitsFor nbytes, nbytes⟩],
                          regions := s.regions ++ got } fs' := by
  obtain ⟨hupos, henough⟩ := unitsFor_spec hbytes
  have htotal := hi.total_eq
  have hstop : ∀ a ∈ answer, ∀ r ∈ s.blocks ++ fs, 0 < r.units → r.stop ≤ a := by
    intro a ha r hr hpos
    have hlast : r.addr ≤ r.stop - 1 ∧ r.stop - 1 < r.stop := by
      rw [Region.stop]
      omega
    obtain ⟨x, hx, -, hlt⟩ := byte_inside hi.cells hr hlast.1 hlast.2
    have hxa : x.stop ≤ a := (hfresh a ha).2.1 x hx
    omega
  have hans : ∀ a ∈ answer, base + 16 ≤ a ∧ (∀ r ∈ fs, r.stop ≤ a) ∧
      moreUnits (unitsFor nbytes) + total fs < 2 ^ 32 := by
    intro a ha
    refine ⟨(hfresh a ha).1, fun r hr => hstop a ha r (mem_append_right _ hr)
      (hi.list.pos r hr), ?_⟩
    have := hcount (by rintro rfl; cases ha)
    omega
  rcases mallocLoop_spec (n := n) hi.list hupos (by omega) hans with
    heq | ⟨h', fs', y, got, heq, hgot, ht⟩
  · exact .inl heq
  refine .inr ⟨h', fs', y.addr + 16, got, heq, by omega, ?_⟩
  have hy : (⟨y.addr + 16 - 16, unitsFor nbytes, nbytes⟩ : Block).region = y := by
    rw [Nat.add_sub_cancel, ← ht.units]
    rfl
  -- what `sbrk` gave lies above everything
  have hgot' : ∀ g ∈ got, g.units = moreUnits (unitsFor nbytes) ∧ g.addr ∈ answer ∧
      base + 16 ≤ g.addr ∧ ∀ r ∈ s.regions, r.stop ≤ g.addr := by
    intro g hg
    rcases hgot with rfl | ⟨a, ha, rfl⟩
    · exact absurd hg not_mem_nil
    · obtain rfl := mem_singleton.mp hg
      exact ⟨rfl, ha, (hfresh a ha).1, (hfresh a ha).2.1⟩
  have hother : ∀ c ∈ s.live, c.addr ∉ Umalloc.cells (fs ++ got) := by
    intro c hc hm
    have hcmem := mem_map_of_mem (f := Block.region) hc
    have hcaddr := addr_mem_cells (r := c.region) (hi.pos c hc)
    rw [cells_append] at hm
    rcases mem_append.mp hm with hm | hm
    · obtain ⟨x, hx, hcx⟩ := mem_cells_list.mp hm
      exact (pairwise_append.mp hi.disjoint).2.2 _ hcmem x hx hcaddr hcx
    · obtain ⟨g, hg, hcg⟩ := mem_cells_list.mp hm
      have hle := hstop g.addr (hgot' g hg).2.1 c.region (mem_append_left _ hcmem) (hi.pos c hc)
      have hge := (cell_bounds hcg).1
      have hpos := hi.pos c hc
      have hcs : c.region.stop = c.addr + 16 * c.units := rfl
      omega
  constructor
  · exact ht.list
  · show (Umalloc.cells ((s.live ++ [_]).map Block.region ++ fs')).Perm _
    rw [map_append, map_singleton, hy, cells_append s.regions]
    refine List.Perm.trans ?_ (hi.cells.append_right _)
    rw [← cells_append, append_assoc, append_assoc, cells_append, cells_append _ (fs ++ got)]
    exact ht.cells.append_left _
  · refine forall_mem_append.mpr ⟨fun c hc => ?_, forall_mem_singleton.mpr ?_⟩
    · exact (ht.frame c.addr (hother c hc)).trans (hi.size c hc)
    · exact ht.size
  · exact forall_mem_append.mpr ⟨hi.pos, forall_mem_singleton.mpr hupos⟩
  · exact forall_mem_append.mpr ⟨hi.enough, forall_mem_singleton.mpr henough⟩
  · refine pairwise_append.mpr ⟨hi.ordered, ?_, fun r hr g hg => (hgot' g hg).2.2.2 r hr⟩
    rcases hgot with rfl | ⟨a, -, rfl⟩
    · exact List.Pairwise.nil
    · exact pairwise_singleton ..
  · exact forall_mem_append.mpr ⟨hi.above, fun g hg => (hgot' g hg).2.2.1⟩
  · rw [total_append]
    rcases hgot with rfl | ⟨a, ha, rfl⟩
    · exact hi.count
    · have := hcount (by rintro rfl; cases ha)
      simpa [total] using this

/-! ## Runs -/

/-- Nothing has been allocated yet, or the invariant holds. -/
def Reached (base : Nat) (s : Sys) : Prop := Init s ∨ ∃ fs, Inv base s fs

/-- A call as the program may make it, with an answer of `sbrk` that is fresh memory. -/
def Allowed (base : Nat) (s : Sys) : Act → Prop
  | .malloc nbytes answer => nbytes < 2 ^ 32 ∧ 16 * unitsFor nbytes < 2 ^ 31 ∧
      ∀ a ∈ answer, Fresh base s (moreUnits (unitsFor nbytes)) a
  | .free ap => ap ∈ s.live.map (·.addr + 16)
  | .store a _ _ => ∃ b ∈ s.live, b.inside a

/-- A `uint` can count the units that come from `sbrk`. -/
def Countable (s : Sys) : Act → Prop
  | .malloc nbytes (some _) => total s.regions + moreUnits (unitsFor nbytes) < 2 ^ 32
  | _ => True

/-- `base` alone. -/
def Heap.start (h : Heap) (base : Nat) : Heap :=
  { ptr := update h.ptr base base, size := update h.size base 0, freep := base }

theorem inv_start (h : Heap) (base : Nat) : Inv base ⟨h.start base, [], []⟩ [] := by
  refine ⟨⟨⟨update_self .., trivial⟩, nofun, nofun, update_self .., .nil, nofun,
    mem_singleton.mpr rfl⟩, List.Perm.nil, nofun, nofun, nofun, .nil, nofun, ?_⟩
  show 0 < 2 ^ 32
  decide

/-- Every call that is allowed comes to an end, and the invariant holds there. -/
theorem inv_step (hbase : 0 < base) (hi : Reached base s) (ha : Allowed base s a)
    (hc : Countable s a) : ∃ t, step base s a = some t ∧ Reached base t := by
  cases a with
  | malloc nbytes answer =>
    obtain ⟨hbytes, hsize, hfresh⟩ := ha
    have hcount : answer ≠ none → total s.regions + moreUnits (unitsFor nbytes) < 2 ^ 32 := by
      intro hne
      cases answer with
      | none => exact absurd rfl hne
      | some _ => exact hc
    -- the list exists when the loop begins
    obtain ⟨h₀, fs, hinit, hinv⟩ : ∃ h₀ fs,
        malloc base (turns s (unitsFor nbytes)) nbytes [answer] s.heap =
          mallocLoop (turns s (unitsFor nbytes)) (unitsFor nbytes) [answer] h₀.freep h₀ [] ∧
        Inv base { s with heap := h₀ } fs := by
      rcases hi with ⟨hfreep, hlive, hregions⟩ | ⟨fs, hi⟩
      · refine ⟨s.heap.start base, [], ?_, ?_⟩
        · rw [malloc, if_pos hfreep]
          rfl
        · rw [hlive, hregions]
          exact inv_start s.heap base
      · refine ⟨s.heap, fs, ?_, hi⟩
        have hne : s.heap.freep ≠ 0 := by
          intro h0
          rcases mem_cons.mp (h0 ▸ hi.list.freep) with he | hm
          · omega
          · obtain ⟨r, hr, he⟩ := mem_map.mp hm
            have := hi.list.above r hr
            omega
        rw [malloc, if_neg hne]
    rw [step, if_pos ⟨hbytes, hsize, hfresh⟩, hinit]
    rcases hinv.malloc (n := turns s (unitsFor nbytes)) hbytes hfresh hcount
        (show total s.regions + _ < _ by rw [turns]; omega) with
      heq | ⟨h', fs', ap, got, heq, hap, hinv'⟩
    · have heq' : mallocLoop (turns s (unitsFor nbytes)) (unitsFor nbytes) [answer] h₀.freep h₀ [] =
          some (h₀, 0, []) := heq
      rw [heq']
      refine ⟨_, rfl, .inr ⟨fs, ?_⟩⟩
      simpa using hinv
    · have heq' : mallocLoop (turns s (unitsFor nbytes)) (unitsFor nbytes) [answer] h₀.freep h₀ [] =
          some (h', ap, got) := heq
      rw [heq']
      refine ⟨_, rfl, .inr ⟨fs', ?_⟩⟩
      simp only [if_neg hap]
      exact hinv'
  | free ap =>
    rcases hi with ⟨-, hlive, -⟩ | ⟨fs, hi⟩
    · have hm : ap ∈ s.live.map (·.addr + 16) := ha
      rw [hlive] at hm
      exact absurd hm not_mem_nil
    obtain ⟨b, hb, rfl⟩ := mem_map.mp ha
    obtain ⟨h', fs', hfree, hinv⟩ := hi.free hb (n := turns s 0) (by rw [turns]; omega)
    have hm : b.addr + 16 ∈ s.live.map (·.addr + 16) := ha
    refine ⟨_, ?_, .inr ⟨fs', hinv⟩⟩
    rw [step, if_pos hm, hfree]
    rfl
  | store a ptr size =>
    obtain ⟨b, hb, hin⟩ := ha
    rcases hi with ⟨-, hlive, -⟩ | ⟨fs, hi⟩
    · rw [hlive] at hb
      exact absurd hb not_mem_nil
    exact ⟨_, by rw [step, if_pos ⟨b, hb, hin⟩], .inr ⟨fs, hi.store hb hin ptr size⟩⟩

/-- What the heap is: its blocks are apart, large enough, and in memory from `sbrk`,
and the free list is a cycle of blocks in ascending order with gaps between them. -/
structure Intact (base : Nat) (s : Sys) (fs : List Region) : Prop where
  aligned : (∀ r ∈ s.regions, 16 ∣ r.addr) → ∀ b ∈ s.live, 16 ∣ b.addr + 16
  enough : ∀ b ∈ s.live, b.addr + 16 + b.nbytes ≤ b.addr + 16 * b.units
  apart : (s.blocks ++ fs).Pairwise Region.Apart
  inside : ∀ x ∈ s.blocks ++ fs, ∀ i, x.addr ≤ i → i < x.stop →
    ∃ r ∈ s.regions, r.addr ≤ i ∧ i < r.stop
  list : FreeList base s.heap fs
  units : total s.blocks + total fs = total s.regions

theorem Inv.intact (hi : Inv base s fs) : Intact base s fs where
  aligned hreg b hb := by
    have hmem : b.region ∈ s.blocks ++ fs := mem_append_left _ (mem_map_of_mem hb)
    have hcell := addr_mem_cells (r := b.region) (hi.pos b hb)
    obtain ⟨r, hr, hc⟩ := mem_cells_list.mp
      (hi.cells.mem_iff.mp (mem_cells_list.mpr ⟨b.region, hmem, hcell⟩))
    obtain ⟨k, -, he⟩ := mem_cells.mp hc
    have := hreg r hr
    have hb : b.region.addr = b.addr := rfl
    omega
  enough b hb := by
    have := hi.enough b hb
    omega
  apart := hi.apart
  inside _ hx _ hlo hhi := byte_inside hi.cells hx hlo hhi
  list := hi.list
  units := hi.total_eq

theorem allowed_of_step (h : step base s a = some t) : Allowed base s a := by
  cases a with
  | malloc nbytes answer | free ap | store a ptr size =>
    rw [step] at h
    split_ifs at h
    assumption

/-- In every state of every run in which a `uint` can count the units, the heap is
intact, or has not been used yet; and every call ends. -/
theorem heap_integrity (hbase : 0 < base) {h : List (Sys × Act)} (r : Run Init (step base) h s)
    (hc : ∀ x ∈ h, Countable x.1 x.2) :
    (Init s ∨ ∃ fs, Intact base s fs) ∧
    ∀ a, Allowed base s a → Countable s a → ∃ t, step base s a = some t := by
  have hi : Reached base s := by
    refine r.inv_of_steps (fun s => .inl) ?_ hc
    intro s a t hi hca hst
    obtain ⟨t', hst', ht'⟩ := inv_step hbase hi (allowed_of_step hst) hca
    exact Option.some.inj (hst.symm.trans hst') ▸ ht'
  refine ⟨hi.imp_right fun ⟨fs, hi⟩ => ⟨fs, hi.intact⟩, fun a ha hca => ?_⟩
  obtain ⟨t, ht, -⟩ := inv_step hbase hi ha hca
  exact ⟨t, ht⟩

/-- An unused heap. -/
def unused : Sys := ⟨⟨fun _ => 0, fun _ => 0, 0⟩, [], []⟩

/-- `sbrk` gives a region at an odd address, as after a call of `sbrk(1)`; so does
`malloc`. -/
theorem malloc_unaligned : ∃ (h : List (Sys × Act)) (s : Sys), Run Init (step 4096) h s ∧
    s.live = [⟨8193 + 16 * 4094, 2, 1⟩] ∧ ∃ b ∈ s.live, ¬ 16 ∣ b.addr + 16 := by
  have he : (exec (step 4096) unused [.malloc 1 (some 8193)]).map (fun s => s.live) =
      some [⟨8193 + 16 * 4094, 2, 1⟩] := by decide +kernel
  obtain ⟨s, r, hlive⟩ := @run_of_exec _ _ Init _ _ _ _ ⟨rfl, rfl, rfl⟩ _ _ he
  refine ⟨_, s, r, hlive, ?_⟩
  rw [hlive]
  decide

/-- As many units as one call gives. -/
def mostUnits : Nat := 2 ^ 27 - 1

/-- 33 such blocks, one behind the other, and all of them freed. -/
def countTooFar : List Act :=
  (List.range 33).map (fun i => .malloc (16 * (mostUnits - 1)) (some (8192 + 16 * mostUnits * i))) ++
    (List.range 33).map fun i => .free (8192 + 16 * mostUnits * i + 16)

/-- A `uint` does not count these units: the blocks are joined to one whose size has
wrapped, and the rest is lost. -/
theorem units_lost : ∃ (h : List (Sys × Act)) (s : Sys), Run Init (step 4096) h s ∧
    s.live = [] ∧ total s.regions = 33 * mostUnits ∧ ∀ fs, ¬ Intact 4096 s fs := by
  have he : (exec (step 4096) unused countTooFar).map (fun s => (s.live, total s.regions,
      s.heap.ptr 4096, s.heap.ptr 8192, s.heap.size 8192)) =
      some ([], 33 * mostUnits, 8192, 4096, 33 * mostUnits - 2 ^ 32) := by decide +kernel
  obtain ⟨s, r, hs⟩ := @run_of_exec _ _ Init _ _ _ _ ⟨rfl, rfl, rfl⟩ _ _ he
  simp only [Prod.mk.injEq] at hs
  obtain ⟨hlive, htotal, hfirst, hback, hsize⟩ := hs
  refine ⟨_, s, r, hlive, htotal, fun fs hi => ?_⟩
  have hunits : total fs = 33 * mostUnits := by
    rw [← htotal, ← hi.units]
    simp [Sys.blocks, hlive, total]
  have hf := hi.list
  cases fs with
  | nil => exact absurd hunits (by decide)
  | cons x fs =>
    have hx : 8192 = x.addr := hfirst.symm.trans hf.links.1
    cases fs with
    | nil =>
      have := hf.size x mem_cons_self
      rw [← hx, hsize] at this
      rw [total, map_singleton, sum_singleton, ← this] at hunits
      exact absurd hunits (by decide)
    | cons y fs =>
      have hy : s.heap.ptr x.addr = y.addr := hf.links.2.1
      rw [← hx, hback] at hy
      have := hf.above y (mem_cons_of_mem _ mem_cons_self)
      omega

instance (s : Sys) (a : Act) : Decidable (Countable s a) :=
  match a with
  | .malloc nbytes (some _) =>
    inferInstanceAs (Decidable (total s.regions + moreUnits (unitsFor nbytes) < 2 ^ 32))
  | .malloc _ none | .free _ | .store .. => .isTrue trivial

/-- Allocate, store, allocate from what is left, free both and allocate again. -/
def someCalls : List Act :=
  [.malloc 100 (some 8192), .store (8192 + 16 * 4090) 1 1, .malloc 5000 none,
   .free (8192 + 16 * 4088 + 16), .free (8192 + 16 * 3774 + 16), .malloc 8 none]

theorem heap_integrity_calls : ∃ (h : List (Sys × Act)) (s : Sys), Run Init (step 4096) h s ∧
    (∀ x ∈ h, Countable x.1 x.2) ∧ s.live = [⟨8192 + 16 * 4094, 2, 8⟩] ∧
    (Init s ∨ ∃ fs, Intact 4096 s fs) ∧
    ∀ a, Allowed 4096 s a → Countable s a → ∃ t, step 4096 s a = some t := by
  have he : (exec (step 4096) unused someCalls).map (fun s => s.live) =
      some [⟨8192 + 16 * 4094, 2, 8⟩] := by decide +kernel
  obtain ⟨s, r, hlive⟩ := @run_of_exec _ _ Init _ _ _ _ ⟨rfl, rfl, rfl⟩ _ _ he
  have hc : ∀ x ∈ hist (step 4096) unused someCalls, Countable x.1 x.2 := by decide +kernel
  exact ⟨_, s, r, hc, hlive, heap_integrity (by decide) r hc⟩

end Xv6.Umalloc
