/-
# `Xv6.Mem.UserCopy` — copies to and from the processes of a run

`Xv6.Mem.Copy` has a page table apart from the memory that it lies in, and `walkaddr`
returns 0 for no page.  Both are right for the tables the kernel makes: the pages that
the user may access come from the allocator, are mapped once, and hold no table.
-/
import Xv6.Exec.Space
import Xv6.Mem.Conserve

namespace Xv6.Vm

open Machine Mem Multiset
open Exec (leaf_eq_map user_lt)

/-- The pages that the user may access are pages of memory, mapped once, and no tables. -/
structure Sound (pt : Pgtbl) : Prop where
  page : ∀ va, User pt va → PageOk KERNBASE (pt.leaf va).pa
  once : ∀ va vb, User pt va → User pt vb → (pt.leaf va).pa = (pt.leaf vb).pa →
    va / PGSIZE = vb / PGSIZE
  table : ∀ a ∈ pt.tables, a % PGSIZE = 0 ∧ ∀ va, User pt va → (pt.leaf va).pa ≠ a

variable {im : Image} {s : Sys} {p : Fin NPROC} {pt : Pgtbl}

theorem sound_of_inv (h : Inv im s) (hpt : (s.proc p).pagetable = some pt) : Sound pt := by
  cases h.proc p with
  | unused _ _ hno =>
    rw [hno] at hpt
    cases hpt
  | @live tf pt' _ htf hpt' hsh _ =>
    obtain rfl : pt' = pt := Option.some.inj (hpt'.symm.trans hpt)
    have hpages : (s.proc p).pages = {tf} + owned pt' (s.proc p).sz := by
      rw [Proc.pages, htf, hpt]
      rfl
    have hnd := (h.owns 0).nodup
    rw [inUse_eq s p, hpages] at hnd
    obtain ⟨-, hframes, hdisj⟩ :=
      nodup_add.mp (nodup_add.mp (nodup_add.mp (nodup_add.mp (nodup_add.mp hnd).2.1).2.1).1).2.1
    have hok : ∀ a ∈ owned pt' (s.proc p).sz, PageOk im.kend a := fun a ha => by
      refine pageOk_of_mem im (mem_coe.mp ?_)
      rw [← (h.owns 0).total, inUse_eq s p, hpages]
      simp [ha]
    have hmem : ∀ va, User pt' va → (pt'.leaf va).pa ∈ frames pt'.map 0 (npages (s.proc p).sz) :=
      fun va hu => by
        rw [leaf_eq_map hu.low]
        exact mem_frames (Nat.zero_le _) (by have := user_lt hsh hu; omega)
    refine ⟨fun va hu => ?_, fun va vb hu hv he => ?_, fun a ha => ⟨?_, fun va hu he => ?_⟩⟩
    · obtain ⟨h0, hlow, hhigh⟩ := hok _ (mem_add.mpr (.inr (hmem va hu)))
      exact ⟨h0, im.base.trans hlow, hhigh⟩
    · rw [leaf_eq_map hu.low, leaf_eq_map hv.low] at he
      have hi := user_lt hsh hu
      have hj := user_lt hsh hv
      exact frames_inj hframes (Nat.zero_le _) (by omega) (Nat.zero_le _) (by omega) he
    · exact (hok a (mem_add.mpr (.inl ha))).1
    · exact disjoint_left.mp hdisj ha (he ▸ hmem va hu)

namespace Sound

theorem noPageZero (h : Sound pt) : NoPageZero pt := fun va hu h0 => by
  have hlow := (h.page va hu).2.1
  rw [h0] at hlow
  exact absurd hlow (by decide)

/-- No two addresses share a byte. -/
theorem phys_inj (h : Sound pt) {va vb : Nat} (hu : User pt va) (hv : User pt vb)
    (he : phys pt va = phys pt vb) : va = vb := by
  have ha : (pt.leaf va).pa % 4096 = 0 := (h.page va hu).1
  have hb : (pt.leaf vb).pa % 4096 = 0 := (h.page vb hv).1
  have he : (pt.leaf va).pa + va % 4096 = (pt.leaf vb).pa + vb % 4096 := he
  have hpage : va / 4096 = vb / 4096 := h.once va vb hu hv (by omega)
  omega

theorem phys_ne_table (h : Sound pt) {va a i : Nat} (hu : User pt va) (ha : a ∈ pt.tables)
    (hi : i < PGSIZE) : phys pt va ≠ a + i := by
  intro he
  have hpa : (pt.leaf va).pa % 4096 = 0 := (h.page va hu).1
  have h0 : a % 4096 = 0 := (h.table a ha).1
  have he : (pt.leaf va).pa + va % 4096 = a + i := he
  have hi : i < 4096 := hi
  exact (h.table a ha).2 va hu (by omega)

end Sound

/-- On the page table of a process, in every run:  `copyout`, `copyin` and `copyinstr` do
not panic, and succeed exactly if every page of the range (for `copyinstr`: up to the NUL)
may be accessed.  They copy the bytes of a first part of the range, all of them on
success;  `copyout` changes no other byte, and none of the page table. -/
theorem copies_respect_pagetable {h : List (Kernel × Act)} {k : Kernel}
    (r : Run (Init im) (step im) h k) (hpt : (k.sys.proc p).pagetable = some pt) (m : Phys) :
    (∀ (dstva : Nat) (src : List UInt8), ∃ ok j m', copyout pt dstva src m = .ok (ok, m') ∧
      Copied (Writable pt) dstva src.length ok j ∧ peek (phys pt) dstva j m' = src.take j ∧
      (∀ a, (∀ i < j, phys pt (dstva + i) ≠ a) → m' a = m a) ∧
      ∀ a ∈ pt.tables, ∀ i < PGSIZE, m' (a + i) = m (a + i)) ∧
    (∀ srcva len : Nat, ∃ ok j, copyin pt m srcva len = .ok (ok, peek (phys pt) srcva j m) ∧
      Copied (User pt) srcva len ok j) ∧
    ∀ srcva max : Nat, ∃ ok n, copyinstr pt m srcva max = .ok (ok, peek (phys pt) srcva n m) ∧
      n ≤ max ∧ (ok = true ↔ ∃ j, StringAt pt m srcva max j) ∧
      (ok = true → ∃ j, StringAt pt m srcva max j ∧ n = j + 1) := by
  have hs := sound_of_inv (good_run r).inv hpt
  refine ⟨fun dstva src => ?_, fun srcva len => ?_, copyinstr_spec hs.noPageZero m⟩
  swap
  · exact copyinFrom_spec hs.noPageZero len [] srcva len le_rfl
  obtain ⟨ok, j, heq, hc⟩ := copyout_spec pt m dstva src
  have hlen : (src.take j).length = j := by rw [List.length_take, Nat.min_eq_left hc.le]
  have hframe : ∀ a, (∀ i < j, phys pt (dstva + i) ≠ a) →
      poke (phys pt) dstva (src.take j) m a = m a :=
    fun a ha => poke_frame _ _ (hlen.symm ▸ ha)
  refine ⟨ok, j, _, heq, hc, ?_, hframe, fun a ha i hi => ?_⟩
  · have huser : ∀ va ∈ Set.Ico dstva (dstva + j), User pt va := by
      rintro va ⟨hlow, hhigh⟩
      have := (hc.may (va - dstva) (by omega)).toUser
      rwa [Nat.add_sub_cancel' hlow] at this
    have hback := peek_poke dstva (src.take j) m (hlen.symm ▸ fun va hva vb hvb he =>
      hs.phys_inj (huser va hva) (huser vb hvb) he)
    rwa [hlen] at hback
  · exact hframe _ fun n hn => hs.phys_ne_table (hc.may n hn).toUser ha hi

set_option maxRecDepth 20000 in
/-- Four bytes over the end of the first page of a child that has grown. -/
theorem copies_respect_pagetable_child : ∃ h k pt m', Run (Init smallImage) (step smallImage) h k ∧
    (k.sys.proc 1).pagetable = some pt ∧ copyout pt 4094 [1, 2, 3, 4] (fun _ => 0) = .ok (true, m') ∧
    peek (phys pt) 4094 4 m' = [1, 2, 3, 4] := by
  obtain ⟨h, k, r, hv⟩ := run_of_view forkGrow
    (f := fun k => (k.sys.proc 1).pagetable.map fun pt => [4094, 4095, 4096, 4097].all fun va =>
      pt.present va && (pt.leaf va).v && (pt.leaf va).u && (pt.leaf va).w) (v := some true)
    (by decide +kernel)
  obtain ⟨pt, hpt, hok⟩ := Option.map_eq_some_iff.mp hv
  obtain ⟨hout, -, -⟩ := copies_respect_pagetable r hpt fun _ => 0
  obtain ⟨ok, j, m', heq, hc, hback, -⟩ := hout 4094 [1, 2, 3, 4]
  have hw : ∀ i < [1, 2, 3, 4].length, Writable pt (4094 + i) := fun i hi => by
    have hmem : 4094 + i ∈ [4094, 4095, 4096, 4097] := by
      simp only [List.length_cons, List.length_nil] at hi
      simp only [List.mem_cons, List.not_mem_nil, or_false]
      omega
    have := List.all_eq_true.mp hok _ hmem
    simp only [Bool.and_eq_true] at this
    obtain ⟨⟨⟨hp, hv⟩, hu⟩, hw⟩ := this
    exact ⟨⟨Nat.lt_trans (Nat.add_lt_add_left hi _) (by decide), hp, hv, hu⟩, hw⟩
  obtain rfl := hc.iff.mpr hw
  obtain rfl := hc.all rfl
  exact ⟨h, k, pt, m', r, hpt, heq, hback⟩

end Xv6.Vm
