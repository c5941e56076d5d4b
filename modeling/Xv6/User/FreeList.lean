/-
# `Xv6.User.FreeList` — what `free` and `malloc` do to the free list

The free list is read as a list of blocks in ascending order: `base` comes first,
since it lies below all of them, and the last block points back to it.  What `free`
and `malloc` do is said in terms of that list and of the units its blocks consist
of; joining two blocks or cutting one leaves the units as they are.
-/
import Xv6.User.Umalloc

namespace Xv6.Umalloc

open Machine Function List

/-! ## Blocks and their units -/

/-- The end of a block. -/
def Region.stop (r : Region) : Nat := r.addr + 16 * r.units

/-- The addresses of the units of a block. -/
def Region.cells (r : Region) : List Nat := (List.range r.units).map (r.addr + 16 * ·)

def cells (l : List Region) : List Nat := l.flatMap Region.cells

variable {a p bp n nunits : Nat} {ls rs : List Region} {r : Region} {l : List Nat}

theorem mem_cells : a ∈ r.cells ↔ ∃ k < r.units, r.addr + 16 * k = a := by
  simp [Region.cells]

theorem addr_mem_cells (h : 0 < r.units) : r.addr ∈ r.cells := mem_cells.mpr ⟨0, h, rfl⟩

@[simp] theorem cells_nil : cells [] = [] := rfl

@[simp] theorem cells_cons (r : Region) (l : List Region) : cells (r :: l) = r.cells ++ cells l :=
  rfl

@[simp] theorem cells_append (l m : List Region) : cells (l ++ m) = cells l ++ cells m :=
  flatMap_append

/-- Two blocks in a row are one block. -/
theorem cells_join (a m n : Nat) :
    (Region.mk a (m + n)).cells = (Region.mk a m).cells ++ (Region.mk (a + 16 * m) n).cells := by
  simp only [Region.cells, range_add, map_append, map_map]
  congr 1
  refine map_congr_left fun k _ => ?_
  simp only [comp_apply]
  omega

theorem length_cells (l : List Region) : (cells l).length = total l := by
  induction l with
  | nil => rfl
  | cons r l ih =>
    rw [cells_cons, length_append, ih]
    simp [Region.cells, total]

/-! ## The list -/

/-- From `base` the links lead through the blocks `fs` and back. -/
structure FreeList (base : Nat) (h : Heap) (fs : List Region) : Prop where
  links : Circular h.ptr base (fs.map Region.addr)
  size : ∀ r ∈ fs, h.size r.addr = r.units
  pos : ∀ r ∈ fs, 0 < r.units
  base_size : h.size base = 0
  apart : fs.Pairwise fun x y => x.stop < y.addr
  above : ∀ r ∈ fs, base + 16 ≤ r.addr
  freep : h.freep ∈ base :: fs.map Region.addr

variable {base : Nat} {h : Heap} {fs : List Region}

theorem FreeList.sorted (hf : FreeList base h fs) :
    (base :: fs.map Region.addr).Pairwise (· < ·) := by
  refine pairwise_cons.mpr ⟨fun a ha => ?_, ?_⟩
  · obtain ⟨r, hr, rfl⟩ := mem_map.mp ha
    have := hf.above r hr
    omega
  · refine pairwise_map.mpr (hf.apart.imp fun {x y} hxy => ?_)
    have : x.stop = x.addr + 16 * x.units := rfl
    omega

theorem FreeList.nodup (hf : FreeList base h fs) : (base :: fs.map Region.addr).Nodup :=
  hf.sorted.imp Nat.ne_of_lt

/-- The ring is cut behind its node `p`: `l` are the nodes before `p`, and `ls` and `rs`
the blocks up to `p` and behind it. -/
structure Cut (base : Nat) (h : Heap) (fs : List Region) (p : Nat) (l : List Nat)
    (ls rs : List Region) : Prop where
  blocks : fs = ls ++ rs
  front : base :: ls.map Region.addr = l ++ [p]
  before : Linked h.ptr l p
  next : h.ptr p = (rs.map Region.addr).headD base
  behind : Linked h.ptr (rs.map Region.addr) base

theorem FreeList.cut (hf : FreeList base h fs) {r : List Nat}
    (hp : base :: fs.map Region.addr = l ++ p :: r) :
    ∃ ls rs, Cut base h fs p l ls rs ∧ rs.map Region.addr = r := by
  have hlinks := hf.links
  rw [Circular, hp, linked_append] at hlinks
  obtain ⟨hbefore, hnext, hbehind⟩ := hlinks
  cases l with
  | nil =>
    obtain ⟨rfl, hr⟩ := List.cons.inj hp
    subst hr
    exact ⟨[], fs, ⟨rfl, rfl, trivial, hnext, hbehind⟩, rfl⟩
  | cons b l =>
    obtain ⟨rfl, hr⟩ := List.cons.inj hp
    obtain ⟨ls, rest, hfs, hls, hrest⟩ := map_eq_append_iff.mp hr
    obtain ⟨z, rs, rfl, rfl, rfl⟩ := map_eq_cons_iff.mp hrest
    refine ⟨ls ++ [z], rs, ⟨by rw [hfs]; simp, ?_, hbefore, hnext, hbehind⟩, rfl⟩
    rw [map_append, hls]
    rfl

/-- The blocks up to `p` lie at or below it, those behind it above. -/
theorem Cut.order (hf : FreeList base h fs) (hc : Cut base h fs p l ls rs) :
    (∀ a ∈ l, a < p) ∧ (∀ r ∈ rs, p < r.addr) ∧ base ≤ p := by
  have hs := hf.sorted
  rw [hc.blocks, map_append, ← cons_append, hc.front] at hs
  obtain ⟨hl, -, hlr⟩ := pairwise_append.mp hs
  refine ⟨fun a ha => ?_, fun r hr => ?_, ?_⟩
  · exact (pairwise_append.mp hl).2.2 a ha p mem_cons_self
  · exact hlr p (by simp) r.addr (mem_map_of_mem hr)
  · have hfront := hc.front
    cases l with
    | nil => exact (List.cons.inj hfront).1.le
    | cons b l =>
      obtain ⟨rfl, -⟩ := List.cons.inj hfront
      exact ((pairwise_append.mp hl).2.2 base mem_cons_self p mem_cons_self).le

/-- The node is `base`, or a block. -/
theorem Cut.last (hc : Cut base h fs p l ls rs) : p = base ∧ ls = [] ∨
      ∃ ls' z, ls = ls' ++ [z] ∧ z.addr = p ∧ l = base :: ls'.map Region.addr := by
  have hfront := hc.front
  rcases eq_nil_or_concat ls with rfl | ⟨ls', z, rfl⟩
  · have := append_inj' (show [] ++ [base] = l ++ [p] from hfront) rfl
    exact .inl ⟨(List.cons.inj this.2).1.symm, rfl⟩
  · rw [concat_eq_append, map_append, ← cons_append] at hfront
    obtain ⟨hl, hz⟩ := append_inj' hfront rfl
    exact .inr ⟨ls', z, concat_eq_append .., (List.cons.inj hz).1, hl.symm⟩

/-- The loop of `free` stops at the last node below the block. -/
theorem place_iff (hf : FreeList base h fs) (hc : Cut base h fs p l ls rs)
    (hbase : base < bp) : h.place bp p = true ↔ p < bp ∧ ∀ r ∈ rs, bp < r.addr := by
  obtain ⟨-, hr, hb⟩ := hc.order hf
  rw [Heap.place, hc.next]
  cases rs with
  | nil =>
    simp only [map_nil, headD_nil, Bool.or_eq_true, Bool.and_eq_true,
      decide_eq_true_eq, not_mem_nil, false_imp_iff, implies_true, and_true]
    omega
  | cons y rs =>
    have hy := hr y mem_cons_self
    have hmono : ∀ r ∈ rs, y.addr < r.addr := by
      have hap := hf.apart
      rw [hc.blocks] at hap
      intro r hr
      have := (pairwise_cons.mp (pairwise_append.mp hap).2.1).1 r hr
      rw [Region.stop] at this
      omega
    simp only [map_cons, headD_cons, Bool.or_eq_true, Bool.and_eq_true,
      decide_eq_true_eq, forall_mem_cons]
    constructor
    · intro hp
      refine ⟨by omega, by omega, fun r hr => ?_⟩
      have := hmono r hr
      omega
    · omega

theorem exists_last_lt : ∀ {l : List Nat}, (∃ a ∈ l, a < bp) →
    ∃ c q d, l = c ++ q :: d ∧ q < bp ∧ ∀ a ∈ d, ¬ a < bp
  | [], h => by simp at h
  | x :: l, h => by
    by_cases hl : ∃ a ∈ l, a < bp
    · obtain ⟨c, q, d, rfl, hq, hd⟩ := exists_last_lt hl
      exact ⟨x :: c, q, d, rfl, hq, hd⟩
    · obtain ⟨a, ha, hlt⟩ := h
      rcases mem_cons.mp ha with rfl | ha
      · exact ⟨[], a, l, rfl, hlt, fun b hb hlt => hl ⟨b, hb, hlt⟩⟩
      · exact absurd ⟨a, ha, hlt⟩ hl

/-- The loop of `free` ends, with the blocks below `bp` before the cut. -/
theorem FreeList.walk_place (hf : FreeList base h fs) (hbase : base < bp)
    (hbp : ∀ r ∈ fs, r.addr ≠ bp) (hn : fs.length < n) :
    ∃ p l ls rs, walk h.ptr (h.place bp) n h.freep = some p ∧ Cut base h fs p l ls rs ∧
      p < bp ∧ ∀ r ∈ rs, bp < r.addr := by
  obtain ⟨c, q, d, heq, hq, hd⟩ := exists_last_lt
    ⟨base, mem_cons_self, hbase⟩
  obtain ⟨ls, rs, hcut, hrs⟩ := hf.cut heq
  have hstop : h.place bp q = true := by
    refine (place_iff hf hcut hbase).mpr ⟨hq, fun r hr => ?_⟩
    have hge := hd r.addr (hrs ▸ mem_map_of_mem hr)
    have hne := hbp r (hcut.blocks ▸ mem_append_right _ hr)
    omega
  obtain ⟨k, hk, hkq⟩ := hf.links.reaches hf.freep (heq ▸ by simp : q ∈ base :: fs.map Region.addr)
  rw [length_map] at hk
  obtain ⟨j, -, hwalk, hj⟩ := walk_spec h.ptr (h.place bp) (n := n) (hkq ▸ hstop) (by omega)
  -- the loop may only stop at such a node
  have hmem := hf.links.iterate_mem hf.freep j
  generalize h.ptr^[j] h.freep = p at hwalk hj hmem
  obtain ⟨l, r, hlr⟩ := append_of_mem hmem
  obtain ⟨ls, rs, hcut, -⟩ := hf.cut hlr
  obtain ⟨hp, hr⟩ := (place_iff hf hcut hbase).mp hj
  exact ⟨p, l, ls, rs, hwalk, hcut, hp, hr⟩

/-! ## `free` -/

theorem total_append (l m : List Region) : total (l ++ m) = total l + total m := by
  simp [total]

/-- The block joined with the one behind it, if that is where it ends. -/
theorem joinUpper_spec {x : Region} (hx : h.size x.addr = x.units)
    (hnext : h.ptr p = (rs.map Region.addr).headD base)
    (hlinks : Linked h.ptr (rs.map Region.addr) base) (hsize : ∀ r ∈ rs, h.size r.addr = r.units)
    (hapart : rs.Pairwise fun x y => x.stop < y.addr) (hbase : base < x.addr)
    (hgap : ∀ r ∈ rs, x.stop ≤ r.addr) (hsum : x.units + total rs < 2 ^ 32) :
    ∃ x' rs', (h.joinUpper x.addr p).ptr = update h.ptr x.addr ((rs'.map Region.addr).headD base) ∧
      (h.joinUpper x.addr p).size = update h.size x.addr x'.units ∧
      x'.addr = x.addr ∧ x.units ≤ x'.units ∧ rs' <:+ rs ∧ cells (x' :: rs') = cells (x :: rs) ∧
      ∀ r ∈ rs', x'.stop < r.addr := by
  rw [Heap.joinUpper, hx]
  by_cases hjoin : x.addr + 16 * x.units = h.ptr p
  · rw [if_pos hjoin]
    cases rs with
    | nil =>
      have : h.ptr p = base := hnext
      omega
    | cons y rs =>
      have hy : h.ptr p = y.addr := hnext
      have hsy := hsize y mem_cons_self
      refine ⟨⟨x.addr, x.units + y.units⟩, rs, ?_, ?_, rfl, Nat.le_add_right _ _,
        suffix_cons _ _, ?_, fun r hr => ?_⟩
      · rw [hy, hlinks.1]
      · have hlt : x.units + y.units < 2 ^ 32 := by
          rw [total, map_cons, sum_cons] at hsum
          omega
        rw [hy, hsy, Nat.mod_eq_of_lt hlt]
      · rw [cells_cons, cells_cons, cells_cons, cells_join, append_assoc, hjoin, hy]
      · have := (pairwise_cons.mp hapart).1 r hr
        simp only [Region.stop] at this ⊢
        omega
  · rw [if_neg hjoin]
    refine ⟨x, rs, by rw [hnext], ?_, rfl, le_rfl, suffix_rfl, rfl, fun r hr => ?_⟩
    · rw [← hx, update_eq_self]
    · cases rs with
      | nil => exact absurd hr not_mem_nil
      | cons y rs =>
        have hy : h.ptr p = y.addr := hnext
        have hxy : x.stop < y.addr := by
          have := hgap y mem_cons_self
          rw [Region.stop] at this ⊢
          omega
        rcases mem_cons.mp hr with rfl | hr
        · exact hxy
        · have := (pairwise_cons.mp hapart).1 r hr
          rw [Region.stop] at this
          omega

/-- The place of a block `x` in the ring: it lies behind the node `p`, the last block
of `ls` may end where it begins, and those behind it are apart from it. -/
structure Spot (base : Nat) (h : Heap) (x : Region) (p : Nat) (l : List Nat)
    (ls rs : List Region) : Prop where
  front : base :: ls.map Region.addr = l ++ [p]
  before : Linked h.ptr l p
  behind : Linked h.ptr (rs.map Region.addr) base
  size : ∀ r ∈ ls ++ rs, h.size r.addr = r.units
  pos : ∀ r ∈ ls ++ x :: rs, 0 < r.units
  base_size : h.size base = 0
  low : ls.Pairwise fun x y => x.stop < y.addr
  high : rs.Pairwise fun x y => x.stop < y.addr
  below : ∀ r ∈ ls, r.stop ≤ x.addr
  apart : ∀ r ∈ rs, x.stop < r.addr
  above : ∀ r ∈ ls ++ x :: rs, base + 16 ≤ r.addr

variable {h' : Heap} {x : Region} {p : Nat} {l : List Nat} {ls rs : List Region}

/-- The nodes before `p` and the blocks behind are not `p` and not `x`. -/
theorem Spot.ne (hs : Spot base h x p l ls rs) :
    (∀ a ∈ l, a ≠ x.addr ∧ a ≠ p) ∧ (∀ r ∈ rs, r.addr ≠ x.addr ∧ r.addr ≠ p) ∧ p < x.addr := by
  have hx := hs.above x (by simp)
  have hpos := hs.pos
  simp only [forall_mem_append, forall_mem_cons] at hpos
  have hltx : ∀ a ∈ base :: ls.map Region.addr, a < x.addr := by
    refine forall_mem_cons.mpr ⟨by omega, fun a ha => ?_⟩
    obtain ⟨r, hr, rfl⟩ := mem_map.mp ha
    have := hs.below r hr
    have := hpos.1 r hr
    simp only [Region.stop] at *
    omega
  have hsorted : (base :: ls.map Region.addr).Pairwise (· < ·) := by
    refine pairwise_cons.mpr ⟨fun a ha => ?_, pairwise_map.mpr (hs.low.imp ?_)⟩
    · obtain ⟨r, hr, rfl⟩ := mem_map.mp ha
      have := hs.above r (mem_append_left _ hr)
      omega
    · intro a b hab
      simp only [Region.stop] at hab
      omega
  rw [hs.front] at hltx hsorted
  have hpx : p < x.addr := hltx p (by simp)
  refine ⟨fun a ha => ?_, fun r hr => ?_, hpx⟩
  · have hap := (pairwise_append.mp hsorted).2.2 a ha p (by simp)
    exact ⟨by omega, by omega⟩
  · have := hs.apart r hr
    simp only [Region.stop] at *
    exact ⟨by omega, by omega⟩

/-- The block becomes a block of the list. -/
theorem Spot.insert (hs : Spot base h x p l ls rs) (hgap : ∀ r ∈ ls, r.stop < x.addr)
    (hptr : h'.ptr = update
      (update h.ptr x.addr ((rs.map Region.addr).headD base)) p x.addr)
    (hsize : h'.size = update h.size x.addr x.units) (hfreep : h'.freep = p) :
    FreeList base h' (ls ++ x :: rs) := by
  obtain ⟨hl, hr, hpx⟩ := hs.ne
  have hsz := hs.size
  rw [forall_mem_append] at hsz
  constructor
  · rw [Circular, map_append, ← cons_append, hs.front, append_assoc, linked_append, hptr]
    refine ⟨hs.before.congr fun a ha => ?_, update_self .., ?_, hs.behind.congr ?_⟩
    · rw [update_of_ne (hl a ha).2, update_of_ne (hl a ha).1]
    · rw [update_of_ne (by omega), update_self]
    · intro a ha
      obtain ⟨r, hr', rfl⟩ := mem_map.mp ha
      rw [update_of_ne (hr r hr').2, update_of_ne (hr r hr').1]
  · simp only [forall_mem_append, forall_mem_cons, hsize]
    refine ⟨fun r hr' => ?_, update_self .., fun r hr' => ?_⟩
    · have := hgap r hr'
      rw [Region.stop] at this
      rw [update_of_ne (by omega), hsz.1 r hr']
    · rw [update_of_ne (hr r hr').1, hsz.2 r hr']
  · exact hs.pos
  · have := hs.above x (by simp)
    rw [hsize, update_of_ne (by omega), hs.base_size]
  · refine pairwise_append.mpr ⟨hs.low, pairwise_cons.mpr ⟨hs.apart, hs.high⟩, ?_⟩
    intro r hr' y hy
    have hrx := hgap r hr'
    rcases mem_cons.mp hy with rfl | hy
    · exact hrx
    · have := hs.apart y hy
      simp only [Region.stop] at *
      omega
  · exact hs.above
  · rw [hfreep, map_append, ← cons_append, hs.front]
    simp

/-- The block below, which ends where `x` begins, grows. -/
theorem Spot.grow {z : Region} (hs : Spot base h x p l (ls ++ [z]) rs) (hz : z.stop = x.addr)
    (hptr : h'.ptr = update
      (update h.ptr x.addr ((rs.map Region.addr).headD base)) p
        ((rs.map Region.addr).headD base))
    (hsize : h'.size = update (update h.size x.addr x.units) p (z.units + x.units))
    (hfreep : h'.freep = p) :
    FreeList base h' (ls ++ ⟨z.addr, z.units + x.units⟩ :: rs) := by
  obtain ⟨hl, hr, hpx⟩ := hs.ne
  obtain ⟨hfront, hzp⟩ : base :: ls.map Region.addr = l ∧ [z.addr] = [p] := by
    have := hs.front
    rw [map_append, ← cons_append] at this
    exact append_inj' this rfl
  obtain rfl : z.addr = p := (List.cons.inj hzp).1
  subst hfront
  have hl' : ∀ r ∈ ls, r.addr ≠ x.addr ∧ r.addr ≠ z.addr := fun r hr' =>
    hl r.addr (mem_cons_of_mem _ (mem_map_of_mem hr'))
  have hsz := hs.size
  have hpos := hs.pos
  have habove := hs.above
  simp only [forall_mem_append, forall_mem_cons] at hsz hpos habove
  obtain ⟨hlow, -, hlz⟩ := pairwise_append.mp hs.low
  constructor
  · rw [Circular, map_append, map_cons, ← cons_append, linked_append, hptr]
    refine ⟨hs.before.congr fun a ha => ?_, update_self .., hs.behind.congr fun a ha => ?_⟩
    · rw [update_of_ne (hl a ha).2, update_of_ne (hl a ha).1]
    · obtain ⟨r, hr', rfl⟩ := mem_map.mp ha
      rw [update_of_ne (hr r hr').2, update_of_ne (hr r hr').1]
  · simp only [forall_mem_append, forall_mem_cons, hsize]
    refine ⟨fun r hr' => ?_, update_self .., fun r hr' => ?_⟩
    · rw [update_of_ne (hl' r hr').2, update_of_ne (hl' r hr').1, hsz.1.1 r hr']
    · rw [update_of_ne (hr r hr').2, update_of_ne (hr r hr').1, hsz.2 r hr']
  · simp only [forall_mem_append, forall_mem_cons]
    exact ⟨hpos.1.1, by omega, hpos.2.2⟩
  · rw [hsize, update_of_ne (by omega), update_of_ne (by omega), hs.base_size]
  · have hstop : (Region.mk z.addr (z.units + x.units)).stop = x.stop := by
      simp only [Region.stop] at hz ⊢
      omega
    refine pairwise_append.mpr ⟨hlow, pairwise_cons.mpr ⟨hstop ▸ hs.apart, hs.high⟩, ?_⟩
    intro r hr' y hy
    have hrz := hlz r hr' z (by simp)
    rcases mem_cons.mp hy with rfl | hy
    · exact hrz
    · have := hs.apart y hy
      simp only [Region.stop] at *
      omega
  · simp only [forall_mem_append, forall_mem_cons]
    exact ⟨habove.1.1, habove.1.2.1, habove.2.2⟩
  · rw [hfreep]
    simp

/-- `free` ends; the units of its block come into the list, and no size outside it and
the list changes. -/
theorem free_spec (hf : FreeList base h fs) (hx : h.size x.addr = x.units) (hpos : 0 < x.units)
    (hbase : base + 16 ≤ x.addr) (hgap : ∀ r ∈ fs, r.stop ≤ x.addr ∨ x.stop ≤ r.addr)
    (hsum : x.units + total fs < 2 ^ 32) (hn : fs.length < n) :
    ∃ h' fs', free n (x.addr + 16) h = some h' ∧ FreeList base h' fs' ∧
      (cells fs').Perm (x.cells ++ cells fs) ∧
      (∀ a, a ∉ x.cells → a ∉ cells fs → h'.size a = h.size a) ∧ ∃ r ∈ fs', x.units ≤ r.units := by
  have hne : ∀ r ∈ fs, r.addr ≠ x.addr := by
    intro r hr he
    have := hgap r hr
    have := hf.pos r hr
    simp only [Region.stop] at *
    omega
  obtain ⟨p, l, ls, rs, hwalk, hcut, hp, hrs⟩ := hf.walk_place (by omega) hne hn
  obtain ⟨hlp, hpr, -⟩ := hcut.order hf
  have hfree : free n (x.addr + 16) h =
      some { (h.joinUpper x.addr p).joinLower x.addr p with freep := p } := by
    rw [free, Nat.add_sub_cancel, hwalk]
    rfl
  obtain rfl := hcut.blocks
  have hls : ∀ r ∈ ls, r ∈ ls ++ rs := fun r => mem_append_left _
  have hrs' : ∀ r ∈ rs, r ∈ ls ++ rs := fun r => mem_append_right _
  obtain ⟨hapl, hapr, -⟩ := pairwise_append.mp hf.apart
  rw [total_append] at hsum
  have hhigh : ∀ r ∈ rs, x.stop ≤ r.addr := by
    intro r hr
    have := hgap r (hrs' r hr)
    have := hrs r hr
    simp only [Region.stop] at *
    omega
  have hlow : ∀ r ∈ ls, r.stop ≤ x.addr := by
    intro r hr
    have hgapr := hgap r (hls r hr)
    have hmem : r.addr ∈ l ++ [p] := hcut.front ▸ mem_cons_of_mem _ (mem_map_of_mem hr)
    have hle : r.addr ≤ p := by
      rcases mem_append.mp hmem with hm | hm
      · exact (hlp _ hm).le
      · exact (mem_singleton.mp hm).le
    simp only [Region.stop] at *
    omega
  obtain ⟨x', rs', hptr, hsize, haddr, hunits, hsuf, hcells, hstop⟩ := joinUpper_spec hx
    hcut.next hcut.behind (fun r hr => hf.size r (hrs' r hr)) hapr (by omega) hhigh (by omega)
  have hsub : ∀ r ∈ ls ++ rs', r ∈ ls ++ rs := fun r hr =>
    (mem_append.mp hr).elim (hls r) fun hr => hrs' r (hsuf.subset hr)
  have hspot : Spot base h x' p l ls rs' := by
    obtain ⟨pre, hpre⟩ := hsuf
    have hbehind := hcut.behind
    rw [← hpre, map_append, linked_append] at hbehind
    refine ⟨hcut.front, hcut.before, hbehind.2, fun r hr => hf.size r (hsub r hr), ?_,
      hf.base_size, hapl, hapr.sublist (hpre ▸ sublist_append_right ..),
      fun r hr => haddr ▸ hlow r hr, hstop, ?_⟩
    · refine forall_mem_append.mpr ⟨fun r hr => hf.pos r (hls r hr), ?_⟩
      refine forall_mem_cons.mpr ⟨by omega, fun r hr => ?_⟩
      exact hf.pos r (hsub r (mem_append_right _ hr))
    · refine forall_mem_append.mpr ⟨fun r hr => hf.above r (hls r hr), ?_⟩
      refine forall_mem_cons.mpr ⟨by omega, fun r hr => ?_⟩
      exact hf.above r (hsub r (mem_append_right _ hr))
  have hsp : (h.joinUpper x.addr p).size p = h.size p := by
    rw [hsize, update_of_ne (by omega)]
  have hsx : (h.joinUpper x.addr p).size x.addr = x'.units := by
    rw [hsize, update_self]
  have hpx : (h.joinUpper x.addr p).ptr x.addr = (rs'.map Region.addr).headD base := by
    rw [hptr, update_self]
  have hperm : ∀ {fs'}, cells fs' = cells ls ++ (x.cells ++ cells rs) →
      (cells fs').Perm (x.cells ++ cells (ls ++ rs)) := by
    intro fs' heq
    rw [heq, cells_append]
    exact perm_append_comm_assoc ..
  have hframe : ∀ {a : Nat}, a ∉ x.cells → a ∉ cells (ls ++ rs) →
      a ≠ x.addr ∧ ∀ r ∈ ls ++ rs, a ≠ r.addr := by
    intro a hax haf
    refine ⟨fun he => hax (he ▸ addr_mem_cells hpos), fun r hr he => haf ?_⟩
    exact mem_flatMap.mpr ⟨r, hr, he ▸ addr_mem_cells (hf.pos r hr)⟩
  rw [hfree]
  by_cases hjoin : p + 16 * h.size p = x.addr
  · rcases hcut.last with ⟨rfl, rfl⟩ | ⟨ls', z, rfl, rfl, -⟩
    · rw [hf.base_size] at hjoin
      omega
    have hsz := hf.size z (hls z (by simp))
    have hlt : z.units + x'.units < 2 ^ 32 := by
      have htx := congrArg List.length hcells
      simp only [length_cells] at htx
      simp only [total, map_append, map_cons, map_nil, sum_append, sum_cons, sum_nil] at htx hsum
      omega
    rw [Heap.joinLower, hsp, if_pos hjoin, hsx, hpx, hsz, Nat.mod_eq_of_lt hlt, hsize, hptr]
    rw [hsz] at hjoin
    refine ⟨_, _, rfl, hspot.grow (haddr ▸ hjoin) (haddr ▸ rfl) (haddr ▸ rfl) rfl, hperm ?_,
      fun a hax haf => ?_, ⟨z.addr, z.units + x'.units⟩, by simp, by simp only; omega⟩
    · rw [cells_append, cells_cons, cells_join, hjoin, ← haddr, append_assoc]
      rw [cells_cons, cells_cons] at hcells
      rw [hcells]
      simp
    · obtain ⟨hax, har⟩ := hframe hax haf
      show update (update h.size x.addr x'.units) z.addr _ a = h.size a
      rw [update_of_ne (har z (hls z (by simp))), update_of_ne hax]
  · rw [Heap.joinLower, hsp, if_neg hjoin, hptr, hsize]
    have hlow' : ∀ r ∈ ls, r.stop < x'.addr := by
      intro r hr
      rw [haddr]
      rcases hcut.last with ⟨-, rfl⟩ | ⟨ls', z, rfl, rfl, -⟩
      · exact absurd hr not_mem_nil
      have hz : z.stop < x.addr := by
        have := hf.size z (hls z (by simp))
        have := hlow z (by simp)
        simp only [Region.stop] at this ⊢
        omega
      rcases mem_append.mp hr with hr | hr
      · have := (pairwise_append.mp hapl).2.2 r hr z (by simp)
        omega
      · exact mem_singleton.mp hr ▸ hz
    refine ⟨_, _, rfl, hspot.insert hlow' (haddr ▸ rfl) (haddr ▸ rfl) rfl, hperm ?_,
      fun a hax haf => ?_, x', by simp, hunits⟩
    · rw [cells_append, hcells, cells_cons]
    · show update h.size x.addr x'.units a = h.size a
      rw [update_of_ne (hframe hax haf).1]

/-! ## `malloc` -/

/-- What a block taken from the list leaves: `y` and the list have its units. -/
structure Taken (base : Nat) (h : Heap) (fs : List Region) (nunits : Nat) (h' : Heap)
    (fs' : List Region) (y : Region) : Prop where
  list : FreeList base h' fs'
  units : y.units = nunits
  size : h'.size y.addr = nunits
  cells : (y.cells ++ cells fs').Perm (cells fs)
  frame : ∀ a, a ∉ Umalloc.cells fs → h'.size a = h.size a

theorem take_spec {prevp : Nat} (hf : FreeList base h fs) (hpos : 0 < nunits)
    (hprev : prevp ∈ base :: fs.map Region.addr) (hfit : nunits ≤ h.size (h.ptr prevp)) :
    ∃ h' fs' y, h.take nunits prevp (h.ptr prevp) = (h', y.addr + 16) ∧
      Taken base h fs nunits h' fs' y := by
  obtain ⟨l, r, hlr⟩ := append_of_mem hprev
  obtain ⟨ls, rs, hcut, -⟩ := hf.cut hlr
  obtain ⟨hlp, hpr, -⟩ := hcut.order hf
  have hnext := hcut.next
  have hbehind := hcut.behind
  obtain rfl := hcut.blocks
  cases rs with
  | nil =>
    rw [show h.ptr prevp = base from hnext, hf.base_size] at hfit
    omega
  | cons x rs =>
    have hx : h.ptr prevp = x.addr := hnext
    rw [hx] at hfit ⊢
    rw [hf.size x (by simp)] at hfit
    have hapart := hf.apart
    obtain ⟨hapl, hapx, haplx⟩ := pairwise_append.mp hapart
    obtain ⟨hxr, hapr⟩ := pairwise_cons.mp hapx
    have hsub : (ls ++ rs).Sublist (ls ++ x :: rs) := (sublist_cons_self x rs).append_left ls
    rw [Heap.take, hf.size x (by simp)]
    by_cases hexact : x.units = nunits
    · -- the block leaves the list
      rw [if_pos hexact]
      refine ⟨_, ls ++ rs, x, rfl, ?_, hexact, (hf.size x (by simp)).trans hexact, ?_,
        fun _ _ => rfl⟩
      · constructor
        · rw [Circular, map_append, ← cons_append, hcut.front, append_assoc, linked_append]
          refine ⟨hcut.before.congr fun a ha => ?_, ?_, hbehind.2.congr fun a ha => ?_⟩
          · exact update_of_ne (hlp a ha).ne ..
          · exact (update_self ..).trans hbehind.1
          · obtain ⟨r, hr, rfl⟩ := mem_map.mp ha
            exact update_of_ne (hpr r (mem_cons_of_mem _ hr)).ne' ..
        · exact fun r hr => hf.size r (hsub.subset hr)
        · exact fun r hr => hf.pos r (hsub.subset hr)
        · exact hf.base_size
        · exact hapart.sublist hsub
        · exact fun r hr => hf.above r (hsub.subset hr)
        · rw [map_append, ← cons_append, hcut.front]
          simp
      · rw [cells_append, cells_append, cells_cons]
        exact perm_append_comm_assoc ..
    · -- it gives up its end
      rw [if_neg hexact]
      have hlt : nunits < x.units := by omega
      simp only
      generalize hq : x.addr + 16 * (x.units - nunits) = q
      have hlow : ∀ r ∈ ls, r.addr < x.addr := fun r hr => by
        have := haplx r hr x (by simp)
        rw [Region.stop] at this
        omega
      have hhigh : ∀ r ∈ rs, x.addr < r.addr ∧ q < r.addr := fun r hr => by
        have := hxr r hr
        rw [Region.stop] at this
        omega
      have hcells : x.cells = (Region.mk x.addr (x.units - nunits)).cells ++
          (Region.mk q nunits).cells := by
        rw [← hq, ← cells_join, Nat.sub_add_cancel hlt.le]
      refine ⟨_, ls ++ ⟨x.addr, x.units - nunits⟩ :: rs, ⟨q, nunits⟩, rfl, ?_, rfl,
        ?_, ?_, fun a ha => ?_⟩
      · have hsize := hf.size
        have hpos := hf.pos
        have habove := hf.above
        simp only [forall_mem_append, forall_mem_cons] at hsize hpos habove
        have haddr : (ls ++ ⟨x.addr, x.units - nunits⟩ :: rs).map Region.addr =
            (ls ++ x :: rs).map Region.addr := by simp
        constructor
        · rw [haddr]
          exact hf.links
        · simp only [forall_mem_append, forall_mem_cons]
          refine ⟨fun r hr => ?_, ?_, fun r hr => ?_⟩
          · have := hlow r hr
            rw [update_of_ne (by omega), update_of_ne (by omega), hsize.1 r hr]
          · rw [update_of_ne (by omega), update_self]
          · have := hhigh r hr
            rw [update_of_ne (by omega), update_of_ne (by omega), hsize.2.2 r hr]
        · simp only [forall_mem_append, forall_mem_cons]
          exact ⟨hpos.1, by omega, hpos.2.2⟩
        · show update (update h.size x.addr _) q _ base = 0
          rw [update_of_ne (by omega), update_of_ne (by omega), hf.base_size]
        · refine pairwise_append.mpr ⟨hapl, pairwise_cons.mpr ⟨fun r hr => ?_, hapr⟩, ?_⟩
          · have := hxr r hr
            simp only [Region.stop] at this ⊢
            omega
          · intro r hr y hy
            rcases mem_cons.mp hy with rfl | hy
            · exact haplx r hr x (by simp)
            · exact haplx r hr y (mem_cons_of_mem _ hy)
        · simp only [forall_mem_append, forall_mem_cons]
          exact habove
        · rwa [haddr]
      · exact update_self ..
      · rw [cells_append, cells_append, cells_cons, cells_cons, hcells]
        refine (perm_append_comm_assoc ..).trans (List.Perm.append_left _ ?_)
        rw [append_assoc]
        exact perm_append_comm_assoc ..
      · have hax : a ∉ x.cells := fun hm => ha (mem_flatMap.mpr ⟨x, by simp, hm⟩)
        rw [hcells, mem_append, not_or] at hax
        have h1 : a ≠ x.addr := fun he => hax.1 (he ▸ addr_mem_cells (by simp only; omega))
        have h2 : a ≠ q := fun he => hax.2 (he ▸ addr_mem_cells hpos)
        show update (update h.size x.addr _) q _ a = h.size a
        rw [update_of_ne h2, update_of_ne h1]

theorem iterate_pair (f : Nat → Nat) (x : Nat) (k : Nat) :
    (fun s : Nat × Nat => (s.2, f s.2))^[k] (x, f x) = (f^[k] x, f (f^[k] x)) := by
  induction k with
  | zero => rfl
  | succ k ih => rw [iterate_succ_apply', ih, iterate_succ_apply']

/-- The loop of `malloc` comes to a block that is large enough if there is one, and to
`freep` if not. -/
theorem FreeList.walk_malloc (hf : FreeList base h fs) (nunits : Nat) (hn : fs.length < n) :
    ∃ prevp ∈ base :: fs.map Region.addr,
      walk (fun s => (s.2, h.ptr s.2)) (fun s => h.size s.2 ≥ nunits || s.2 = h.freep) n
        (h.freep, h.ptr h.freep) = some (prevp, h.ptr prevp) ∧
      (h.ptr prevp = h.freep ∨ nunits ≤ h.size (h.ptr prevp)) ∧
      ((∃ r ∈ fs, nunits ≤ r.units) → nunits ≤ h.size (h.ptr prevp)) := by
  obtain ⟨m, hm, hperm⟩ := hf.links.rotate hf.freep
  have hlen : m.length = fs.length := by
    have := hperm.length_eq
    simpa using this
  have hnodup : (h.freep :: m).Nodup := hperm.nodup_iff.mpr hf.nodup
  have hturn : h.ptr (h.ptr^[m.length] h.freep) = h.freep := by
    rw [Linked.iterate hm rfl m.length (by simp)]
    have hlast := hm
    rw [Circular, ← dropLast_concat_getLast (cons_ne_nil h.freep m), linked_append]
      at hlast
    have hg : (h.freep :: m)[m.length] = (h.freep :: m).getLast (cons_ne_nil _ _) := by
      rw [getLast_eq_getElem]
      rfl
    rw [hg]
    exact hlast.2.1
  -- the loop ends where some node in front of it stops it
  have hend : ∀ k ≤ m.length, h.ptr (h.ptr^[k] h.freep) = h.freep ∨
      nunits ≤ h.size (h.ptr (h.ptr^[k] h.freep)) →
      ∃ j ≤ k, walk (fun s => (s.2, h.ptr s.2)) (fun s => h.size s.2 ≥ nunits || s.2 = h.freep) n
        (h.freep, h.ptr h.freep) = some (h.ptr^[j] h.freep, h.ptr (h.ptr^[j] h.freep)) ∧
        (h.ptr (h.ptr^[j] h.freep) = h.freep ∨ nunits ≤ h.size (h.ptr (h.ptr^[j] h.freep))) := by
    intro k hk hstop
    obtain ⟨j, hj, hwalk, hsj⟩ := walk_spec (fun s : Nat × Nat => (s.2, h.ptr s.2))
      (fun s => h.size s.2 ≥ nunits || s.2 = h.freep) (n := n)
      (by rw [iterate_pair]; simpa [or_comm] using hstop)
      (by omega)
    rw [iterate_pair] at hwalk hsj
    exact ⟨j, hj, hwalk, by simpa [or_comm] using hsj⟩
  by_cases hfit : ∃ r ∈ fs, nunits ≤ r.units
  · obtain ⟨r, hr, hru⟩ := hfit
    have hsr := hf.size r hr
    have hmem : r.addr ∈ h.freep :: m := hperm.mem_iff.mpr (mem_cons_of_mem _ (mem_map_of_mem hr))
    obtain ⟨i, hi, hir⟩ := mem_iff_getElem.mp hmem
    rw [length_cons] at hi
    cases i with
    | zero =>
      have hfr : h.freep = r.addr := hir
      obtain ⟨j, -, hwalk, hj⟩ := hend m.length le_rfl (.inl hturn)
      have hjfit : nunits ≤ h.size (h.ptr (h.ptr^[j] h.freep)) := by
        rcases hj with hj | hj
        · rwa [hj, hfr, hsr]
        · exact hj
      exact ⟨_, hf.links.iterate_mem hf.freep j, hwalk, .inr hjfit, fun _ => hjfit⟩
    | succ i =>
      have hnode : ∀ j (hj : j + 1 < (h.freep :: m).length),
          h.ptr (h.ptr^[j] h.freep) = (h.freep :: m)[j + 1] := fun j hj => by
        rw [← iterate_succ_apply' h.ptr, Linked.iterate hm rfl (j + 1) hj]
      have hi' : i + 1 < (h.freep :: m).length := by
        omega
      have hr' : h.ptr (h.ptr^[i] h.freep) = r.addr := (hnode i hi').trans hir
      obtain ⟨j, hj, hwalk, hstop⟩ := hend i (by omega) (.inr (by rwa [hr', hsr]))
      have hj' : j + 1 < (h.freep :: m).length := by omega
      have hjfit : nunits ≤ h.size (h.ptr (h.ptr^[j] h.freep)) := by
        refine hstop.resolve_left fun he => ?_
        -- the nodes behind `freep` are different from it
        rw [hnode j hj', getElem_cons_succ] at he
        exact (nodup_cons.mp hnodup).1 (he ▸ getElem_mem _)
      exact ⟨_, hf.links.iterate_mem hf.freep j, hwalk, .inr hjfit, fun _ => hjfit⟩
  · obtain ⟨j, -, hwalk, hj⟩ := hend m.length le_rfl (.inl hturn)
    exact ⟨_, hf.links.iterate_mem hf.freep j, hwalk, hj, fun hfit' => absurd hfit' hfit⟩

theorem FreeList.length_le (hf : FreeList base h fs) : fs.length ≤ total fs := by
  have hpos := hf.pos
  clear hf
  induction fs with
  | nil => exact Nat.zero_le _
  | cons r fs ih =>
    have := ih fun x hx => hpos x (mem_cons_of_mem _ hx)
    have := hpos r mem_cons_self
    simp only [total, map_cons, sum_cons, length_cons] at *
    omega

/-- With a block that is large enough the loop takes one. -/
theorem mallocLoop_fits (answers : List (Option Nat)) (got : List Region) (hf : FreeList base h fs)
    (hpos : 0 < nunits) (hn : fs.length < n) (hfit : ∃ r ∈ fs, nunits ≤ r.units) :
    ∃ h' fs' y, mallocLoop n nunits answers h.freep h got = some (h', y.addr + 16, got) ∧
      Taken base h fs nunits h' fs' y := by
  obtain ⟨prevp, hmem, hwalk, -, hsize⟩ := hf.walk_malloc nunits hn
  obtain ⟨h', fs', y, htake, ht⟩ := take_spec hf hpos hmem (hsize hfit)
  refine ⟨h', fs', y, ?_, ht⟩
  rw [mallocLoop.eq_def, hwalk]
  simp only [Option.bind_eq_bind, Option.bind_some, ge_iff_le, hsize hfit, if_true, htake]

theorem moreUnits_ge (nu : Nat) : nu ≤ moreUnits nu ∧ 0 < moreUnits nu := by
  rw [moreUnits]
  split <;> omega

/-- `morecore` puts a region above the list into it. -/
theorem morecore_spec {nu : Nat} (hf : FreeList base h fs) (hbase : base + 16 ≤ a)
    (habove : ∀ r ∈ fs, r.stop ≤ a) (hsum : moreUnits nu + total fs < 2 ^ 32) (hn : fs.length < n) :
    ∃ h' fs', morecore n nu a h = some h' ∧ FreeList base h' fs' ∧
      (cells fs').Perm ((Region.mk a (moreUnits nu)).cells ++ cells fs) ∧
      (∀ b, b ∉ (Region.mk a (moreUnits nu)).cells → b ∉ cells fs → h'.size b = h.size b) ∧
      ∃ r ∈ fs', moreUnits nu ≤ r.units := by
  have hpos := (moreUnits_ge nu).2
  have hne : ∀ r ∈ fs, r.addr ≠ a := fun r hr => by
    have := habove r hr
    have := hf.pos r hr
    simp only [Region.stop] at *
    omega
  have hf' : FreeList base { h with size := update h.size a (moreUnits nu) } fs := by
    refine ⟨hf.links, fun r hr => ?_, hf.pos, ?_, hf.apart, hf.above, hf.freep⟩
    · exact (update_of_ne (hne r hr) ..).trans (hf.size r hr)
    · exact (update_of_ne (by omega) ..).trans hf.base_size
  obtain ⟨h', fs', hfree, hlist, hperm, hframe, hfit⟩ := free_spec (x := ⟨a, moreUnits nu⟩) hf'
    (update_self ..) hpos hbase (fun r hr => .inl (habove r hr)) hsum hn
  refine ⟨h', fs', hfree, hlist, hperm, fun b hb hb' => ?_, hfit⟩
  rw [hframe b hb hb']
  have hne : b ≠ a := fun he => hb (he ▸ addr_mem_cells hpos)
  exact update_of_ne hne ..

/-- With one answer of `sbrk` the loop ends.  Either `sbrk` has failed and nothing is
changed, or a block is taken from the list and what `sbrk` gave. -/
theorem mallocLoop_spec {answer : Option Nat} (hf : FreeList base h fs) (hpos : 0 < nunits)
    (hn : total fs + moreUnits nunits < n)
    (hans : ∀ a ∈ answer, base + 16 ≤ a ∧ (∀ r ∈ fs, r.stop ≤ a) ∧
      moreUnits nunits + total fs < 2 ^ 32) :
    mallocLoop n nunits [answer] h.freep h [] = some (h, 0, []) ∨
    ∃ h' fs' y got, mallocLoop n nunits [answer] h.freep h [] = some (h', y.addr + 16, got) ∧
      (got = [] ∨ ∃ a ∈ answer, got = [⟨a, moreUnits nunits⟩]) ∧
      Taken base h (fs ++ got) nunits h' fs' y := by
  have hlen := hf.length_le
  by_cases hfit : ∃ r ∈ fs, nunits ≤ r.units
  · obtain ⟨h', fs', y, heq, ht⟩ := mallocLoop_fits [answer] [] hf hpos
      (by omega : fs.length < n) hfit
    exact .inr ⟨h', fs', y, [], heq, .inl rfl, by rwa [append_nil]⟩
  · obtain ⟨prevp, hmem, hwalk, hend, -⟩ := hf.walk_malloc nunits (by omega : fs.length < n)
    have hsmall : ¬ h.size (h.ptr prevp) ≥ nunits := by
      intro hge
      rcases mem_cons.mp (hf.links.next_mem hmem) with he | hm
      · rw [he, hf.base_size] at hge
        omega
      · obtain ⟨r, hr, he⟩ := mem_map.mp hm
        rw [← he, hf.size r hr] at hge
        exact hfit ⟨r, hr, hge⟩
    rw [mallocLoop.eq_def, hwalk]
    show (if h.size (h.ptr prevp) ≥ nunits then _ else _) = _ ∨ ∃ h' fs' y got,
      (if h.size (h.ptr prevp) ≥ nunits then _ else _) = _ ∧ _
    rw [if_neg hsmall]
    cases answer with
    | none => exact .inl rfl
    | some a =>
      obtain ⟨hbase, habove, hsum⟩ := hans a rfl
      obtain ⟨h1, fs1, hmore, hf1, hperm, hframe, r, hr, hru⟩ :=
        morecore_spec (n := n) hf hbase habove hsum (by omega)
      have hcells := hperm.length_eq
      rw [length_append, length_cells, length_cells] at hcells
      have hlen1 := hf1.length_le
      have hreg : (Region.mk a (moreUnits nunits)).cells.length = moreUnits nunits := by
        simp [Region.cells]
      obtain ⟨h', fs', y, heq, ht⟩ := mallocLoop_fits [] ([] ++ [⟨a, moreUnits nunits⟩]) hf1 hpos
        (by omega : fs1.length < n) ⟨r, hr, (moreUnits_ge nunits).1.trans hru⟩
      have hall : (cells fs1).Perm (cells (fs ++ [⟨a, moreUnits nunits⟩])) := by
        rw [cells_append, cells_cons, cells_nil, append_nil]
        exact hperm.trans perm_append_comm
      refine .inr ⟨h', fs', y, [⟨a, moreUnits nunits⟩], ?_, .inr ⟨a, rfl, rfl⟩, ht.list, ht.units,
        ht.size, ht.cells.trans hall, fun b hb => ?_⟩
      · simp only [hmore]
        exact heq
      · rw [ht.frame b fun hm => hb (hall.mem_iff.mp hm)]
        rw [cells_append, mem_append, not_or, cells_cons, cells_nil, append_nil] at hb
        exact hframe b hb.2 hb.1

end Xv6.Umalloc
