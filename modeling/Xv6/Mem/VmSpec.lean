/-
# `Xv6.Mem.VmSpec` — what the functions of `vm.c` do to tables, mappings and pages

One specification for each function.  Each says that the function does not panic,
what the page table maps afterwards (`Tbl.map`), and where the pages have gone
(`Moves`): taken from the free list for tables and user memory, or given back.
-/
import Xv6.Mem.Vm

namespace Xv6.Mem

open Machine Function List Option

variable {e t : Nat} {k : Kmem}

variable {k k' : Kmem} {l va n pa c sz oldsz newsz n₀ B : Nat} {pt old : Pgtbl} {X Y : Multiset Nat}
  {f : Nat → Pte} {xperm : Perm}

theorem length_of_ledger (h : k'.ledger = k.ledger) : k'.freelist.length = k.freelist.length := by
  have := congrArg (fun l => Multiset.card l.free) h
  simpa [Kmem.ledger] using this

/-! ## walk -/

theorem leaf_update (pt : Tbl (l + 1)) (i : Fin 512) (c : Tbl l)
    (hc : ∀ vb, c.leaf vb = (pt.child i).elim Pte.zero fun c => c.leaf vb) (vb : Nat) :
    (Tbl.node pt.addr (update pt.child i (some c))).leaf vb = pt.leaf vb := by
  simp only [Tbl.leaf, Tbl.child_node]
  by_cases hi : px (l + 1) vb = i
  · subst hi
    rw [update_self]
    simp only [hc]
    cases pt.child (px (l + 1) vb) <;> rfl
  · rw [update_of_ne hi]

theorem present_update (pt : Tbl (l + 1)) (va : Nat) (c : Tbl l) :
    (Tbl.node pt.addr (update pt.child (px (l + 1) va) (some c))).present va
      = c.present va := by
  simp only [Tbl.present, Tbl.child_node, update_self]

/-- `walk` without `alloc` only looks. -/
theorem walkFrom_none : ∀ {l : Nat} (pt : Tbl l) (va : Nat),
    walkFrom none pt va = pure (pt.present va, pt)
  | 0, _, _ => rfl
  | l + 1, pt, va => by
    cases hc : pt.child (px (l + 1) va) with
    | none => simp only [walkFrom, Tbl.present, hc]
    | some c =>
      simp only [walkFrom, Tbl.present, hc, walkFrom_none c va, pure_bind]
      rw [← hc, update_eq_self]
      rfl

theorem walk_none (pt : Pgtbl) (hva : va < MAXVA) : walk none pt va = pure (pt.present va, pt) := by
  unfold walk
  rw [if_neg (by omega)]
  exact walkFrom_none pt va

/-- The table has grown, and maps what it mapped. -/
structure Grown {l : Nat} (t : Nat) (k : Kmem) (pt : Tbl l) (k' : Kmem) (pt' : Tbl l) : Prop where
  moves : Moves t k.ledger pt.tables k'.ledger pt'.tables
  free : k'.freelist.length ≤ k.freelist.length
  leaf : ∀ vb, pt'.leaf vb = pt.leaf vb

theorem succeeds_walkFrom : ∀ {l : Nat} (pt : Tbl l) (va : Nat) {k : Kmem},
    Succeeds (walkFrom (some t) pt va) k fun r k' =>
      Grown t k pt k' r.2 ∧ (r.1 = true → r.2.present va = true)
  | 0, pt, va, k => Succeeds.pure ⟨⟨Moves.refl _ _ _, le_rfl, fun _ => rfl⟩, fun _ => rfl⟩
  | l + 1, pt, va, k => by
    cases hc : pt.child (px (l + 1) va) with
    | some c =>
      simp only [walkFrom, hc]
      refine (succeeds_walkFrom c va).seq fun r k' ⟨hg, hp⟩ => Succeeds.pure ?_
      obtain ⟨R, hR⟩ := tables_child hc
      have htab := tables_update pt (px (l + 1) va) r.2
      rw [hc, elim_some, hR, add_comm c.tables R, ← add_assoc] at htab
      refine ⟨⟨?_, hg.free, leaf_update pt _ r.2 fun vb => ?_⟩, fun hr => ?_⟩
      · rw [hR, add_right_cancel htab]
        exact hg.moves.frame R
      · rw [hc]; exact hg.leaf vb
      · rw [present_update]; exact hp hr
    | none =>
      simp only [walkFrom, hc]
      refine succeeds_kalloc.seq fun o k1 ho => ?_
      cases o with
      | none =>
        have hk : k1.ledger = k.ledger := ho
        refine Succeeds.pure ⟨⟨hk ▸ Moves.refl _ _ _, ?_, fun _ => rfl⟩, nofun⟩
        exact (length_of_ledger hk).le
      | some pa =>
        obtain ⟨-, hlen, hmv⟩ := ho
        refine (succeeds_walkFrom (Tbl.fresh l pa) va).seq fun r k2 ⟨hg, hp⟩ =>
          Succeeds.pure ?_
        have htab := tables_update pt (px (l + 1) va) r.2
        rw [hc, elim_none, add_zero] at htab
        refine ⟨⟨?_, by have := hg.free; omega, leaf_update pt _ r.2 fun vb => ?_⟩,
          fun hr => ?_⟩
        · rw [htab]
          have hfresh := hg.moves.frame pt.tables
          rw [Tbl.tables_fresh, Multiset.singleton_add] at hfresh
          exact (hmv pt.tables).trans hfresh
        · rw [hc, hg.leaf vb]; exact Tbl.leaf_fresh l pa vb
        · rw [present_update]; exact hp hr

theorem succeeds_walk (pt : Pgtbl) (hva : va < MAXVA) :
    Succeeds (walk (some t) pt va) k fun r k' =>
      Grown t k pt k' r.2 ∧ (r.1 = true → r.2.present va = true) := by
  unfold walk
  rw [if_neg (by omega)]
  exact succeeds_walkFrom pt va

/-! ## mappages -/

/-- The index of the page after the last user page there can be. -/
abbrev MAXPAGE : Nat := MAXVA / PGSIZE

theorem lt_maxva (h : n < MAXPAGE) : n * PGSIZE < MAXVA := by
  have h : n < 67108864 := h
  show n * 4096 < 274877906944
  omega

theorem lt_vpages (h : n < MAXPAGE) : n < VPAGES := by
  have h : n < 67108864 := h
  show n < 134217728
  omega

theorem map_of_leaf {pt' : Pgtbl} (h : ∀ vb, pt'.leaf vb = pt.leaf vb) : pt'.map = pt.map := by
  funext n
  unfold Tbl.map
  rw [h]

/-- One page is mapped, or nothing is; tables may have been added. -/
theorem succeeds_mappages {perm : Perm} (hn : n < MAXPAGE) (hfree : (pt.map n).v = false) :
    Succeeds (mappages t pt (n * PGSIZE) PGSIZE pa perm) k fun r k' =>
      Moves t k.ledger pt.tables k'.ledger r.2.tables ∧
      k'.freelist.length ≤ k.freelist.length ∧
      r.2.map = if r.1 = true then update pt.map n (perm.pte pa) else pt.map := by
  have hvp := lt_vpages hn
  unfold mappages
  rw [if_neg (by simp), if_neg (by simp), if_neg (by decide)]
  refine (succeeds_walk pt (lt_maxva hn)).seq fun r k' ⟨hg, hp⟩ => ?_
  obtain ⟨ok, pt'⟩ := r
  have hmap := map_of_leaf hg.leaf
  cases ok with
  | false => exact Succeeds.pure ⟨hg.moves, hg.free, hmap⟩
  | true =>
    have hnot : ¬ (pt'.leaf (n * PGSIZE)).v = true := by
      rw [hg.leaf, ← Tbl.map_eq pt hvp, hfree]; simp
    simp only [Bool.true_eq_false, if_false, hnot]
    refine Succeeds.pure ⟨?_, hg.free, ?_⟩
    · rw [Tbl.tables_put]; exact hg.moves
    · rw [Tbl.map_put hvp _ (hp rfl)]
      rw [hmap]
      rfl

/-! ## uvmunmap -/

/-- A valid entry that `uvmunmap` takes for a leaf. -/
def Mapped (x : Pte) : Prop := x.v = true ∧ x.r = true

/-- What `uvmunmap` gives back. -/
def given (doFree : Bool) (f : Nat → Pte) (n c : Nat) : Multiset Nat :=
  if doFree = true then frames f n c else 0

theorem succeeds_uvmunmapFrom (doFree : Bool) : ∀ (c n : Nat) (pt : Pgtbl) {k : Kmem},
    n + c ≤ MAXPAGE → (∀ i, n ≤ i → i < n + c → Mapped (pt.map i)) →
    (doFree = true → ∀ i, n ≤ i → i < n + c → PageOk e (pt.map i).pa) →
    Succeeds (uvmunmapFrom e doFree c pt (n * PGSIZE)) k fun pt' k' =>
      pt'.tables = pt.tables ∧ pt'.map = clear pt.map n c ∧
      ∀ t X, Moves t k.ledger (given doFree pt.map n c + X) k'.ledger X
  | 0, n, pt, k, _, _, _ => by
    refine Succeeds.pure ⟨rfl, (clear_zero _ _).symm, fun t X => ?_⟩
    have : given doFree pt.map n 0 = 0 := by unfold given frames; split <;> rfl
    rw [this, zero_add]
    exact Moves.refl _ _ _
  | c + 1, n, pt, k, hn, hmap, hok => by
    have hnp : n < MAXPAGE := by omega
    have hvp := lt_vpages hnp
    obtain ⟨hv, hr⟩ := hmap n le_rfl (by omega)
    have hleaf := Tbl.map_eq pt hvp
    have hpres : pt.present (n * PGSIZE) = true := by
      rw [hleaf] at hv; exact Tbl.present_of_leaf hv
    simp only [uvmunmapFrom, walk_none pt (lt_maxva hnp), pure_bind, hpres, ← hleaf, hv, hr,
      Bool.true_eq_false, if_false, false_and]
    -- the rest of the loop, from the table without this page
    have hrest : ∀ k1, (∀ t X, Moves t k.ledger (given doFree pt.map n 1 + X) k1.ledger X) →
        Succeeds (uvmunmapFrom e doFree c (pt.put (n * PGSIZE) Pte.zero) (n * PGSIZE + PGSIZE)) k1
          fun pt' k' => pt'.tables = pt.tables ∧ pt'.map = clear pt.map n (c + 1) ∧
            ∀ t X, Moves t k.ledger (given doFree pt.map n (c + 1) + X) k'.ledger X := by
      intro k1 h1
      have hput := Tbl.map_put hvp Pte.zero hpres
      have hne : ∀ i, n + 1 ≤ i → (pt.put (n * PGSIZE) Pte.zero).map i = pt.map i := fun i hi => by
        rw [hput, update_of_ne (by omega)]
      rw [← Nat.succ_mul]
      refine (succeeds_uvmunmapFrom doFree c (n + 1) _ (by omega) (fun i hi hc => ?_)
        fun hd i hi hc => ?_).mono fun pt' k' h => ⟨?_, ?_, fun t X => ?_⟩
      · rw [hne i hi]; exact hmap i (by omega) (by omega)
      · rw [hne i hi]; exact hok hd i (by omega) (by omega)
      · rw [h.1, Tbl.tables_put]
      · rw [h.2.1, hput, clear_succ]
      · have hsplit : given doFree pt.map n (c + 1)
            = given doFree pt.map n 1 + given doFree (pt.put (n * PGSIZE) Pte.zero).map (n + 1) c := by
          unfold given
          split
          · have hsame : frames pt.map (n + 1) c
                = frames (pt.put (n * PGSIZE) Pte.zero).map (n + 1) c :=
              frames_congr fun i hi _ => by rw [hne i hi]
            rw [add_comm c 1, frames_add, hsame]
          · rfl
        rw [hsplit, add_assoc]
        exact (h1 t _).trans (h.2.2 t X)
    cases doFree with
    | false =>
      refine hrest k fun t X => ?_
      simp only [given, Bool.false_eq_true, if_false, zero_add]
      exact Moves.refl _ _ _
    | true =>
      refine (succeeds_kfree (hok rfl n le_rfl (by omega))).seq fun _ k1 hmv => hrest k1 fun t X => ?_
      exact hmv t X

theorem succeeds_uvmunmap (doFree : Bool) (hn : n + c ≤ MAXPAGE)
    (hmap : ∀ i, n ≤ i → i < n + c → Mapped (pt.map i))
    (hok : doFree = true → ∀ i, n ≤ i → i < n + c → PageOk e (pt.map i).pa) :
    Succeeds (uvmunmap e pt (n * PGSIZE) c doFree) k fun pt' k' =>
      pt'.tables = pt.tables ∧ pt'.map = clear pt.map n c ∧
      ∀ t X, Moves t k.ledger (given doFree pt.map n c + X) k'.ledger X := by
  unfold uvmunmap
  rw [if_neg (by simp)]
  exact succeeds_uvmunmapFrom doFree c n pt hn hmap hok

/-! ## Sizes -/

/-- The number of pages below `PGROUNDUP sz`. -/
def npages (sz : Nat) : Nat := PGROUNDUP sz / PGSIZE

theorem pgroundup_eq (sz : Nat) : PGROUNDUP sz = npages sz * PGSIZE := by
  unfold npages PGROUNDUP
  rw [Nat.mul_div_cancel _ (by decide)]

theorem npages_eq (h : sz ≤ MAXVA) : npages sz = (sz + 4095) / 4096 := by
  have h : sz ≤ 274877906944 := h
  show (sz + 4096 - 1) % 18446744073709551616 / 4096 * 4096 / 4096 = (sz + 4095) / 4096
  omega

theorem npages_mul (h : n ≤ MAXPAGE) : npages (n * PGSIZE) = n := by
  have h : n ≤ 67108864 := h
  rw [npages_eq (by show n * 4096 ≤ 274877906944; omega)]
  show (n * 4096 + 4095) / 4096 = n
  omega

theorem npages_mono {a b : Nat} (hb : b ≤ MAXVA) (h : a ≤ b) : npages a ≤ npages b := by
  rw [npages_eq (h.trans hb), npages_eq hb]
  omega

theorem le_maxpage (h : sz ≤ MAXVA) : npages sz ≤ MAXPAGE := by
  rw [npages_eq h]
  have h : sz ≤ 274877906944 := h
  show (sz + 4095) / 4096 ≤ 67108864
  omega

/-! ## uvmdealloc -/

theorem succeeds_uvmdealloc (hold : oldsz ≤ MAXVA)
    (hmap : ∀ i, npages newsz ≤ i → i < npages oldsz → Mapped (pt.map i))
    (hok : ∀ i, npages newsz ≤ i → i < npages oldsz → PageOk e (pt.map i).pa) :
    Succeeds (uvmdealloc e pt oldsz newsz) k fun r k' =>
      r.1 = min oldsz newsz ∧ r.2.tables = pt.tables ∧
      r.2.map = clear pt.map (npages r.1) (npages oldsz - npages r.1) ∧
      ∀ t X, Moves t k.ledger
        (frames pt.map (npages r.1) (npages oldsz - npages r.1) + X) k'.ledger X := by
  unfold uvmdealloc
  by_cases hle : oldsz ≤ newsz
  · rw [if_pos hle]
    refine Succeeds.pure ⟨(Nat.min_eq_left hle).symm, rfl, ?_, fun t X => ?_⟩
    · rw [Nat.sub_self, clear_zero]
    · rw [Nat.sub_self, frames, zero_add]; exact Moves.refl _ _ _
  · rw [if_neg hle]
    have hmono := npages_mono hold (by omega : newsz ≤ oldsz)
    have hmin : newsz = min oldsz newsz := by omega
    by_cases hlt : PGROUNDUP newsz < PGROUNDUP oldsz
    · rw [if_pos hlt]
      have hcount : (PGROUNDUP oldsz - PGROUNDUP newsz) / PGSIZE = npages oldsz - npages newsz := by
        rw [pgroundup_eq, pgroundup_eq, ← Nat.sub_mul, Nat.mul_div_cancel _ (by decide)]
      have hmax := le_maxpage hold
      simp only [hcount]
      rw [pgroundup_eq newsz]
      refine (succeeds_uvmunmap true (by omega) (fun i h1 h2 => hmap i h1 (by omega))
        fun _ i h1 h2 => hok i h1 (by omega)).seq fun pt' k' h => ?_
      exact Succeeds.pure ⟨hmin, h⟩
    · rw [if_neg hlt]
      have heq : npages oldsz - npages newsz = 0 := by
        have hsame : PGROUNDUP oldsz = PGROUNDUP newsz := by
          rw [pgroundup_eq, pgroundup_eq] at hlt ⊢
          exact Nat.le_antisymm (Nat.le_of_not_lt hlt) (Nat.mul_le_mul_right _ hmono)
        unfold npages
        rw [hsame, Nat.sub_self]
      refine Succeeds.pure ⟨hmin, rfl, ?_, fun t X => ?_⟩
      · rw [heq, clear_zero]
      · rw [heq, frames, zero_add]; exact Moves.refl _ _ _

/-! ## uvmalloc -/

/-- The pages `n`, ..., `n + c - 1` have been added to the mappings `f`. -/
structure Adds (perm : Nat → Perm) (f f' : Nat → Pte) (n c : Nat) : Prop where
  old : ∀ i, i < n ∨ n + c ≤ i → f' i = f i
  new : ∀ i, n ≤ i → i < n + c → ∃ pa, f' i = (perm i).pte pa

theorem Adds.nil (perm : Nat → Perm) (f : Nat → Pte) (n : Nat) : Adds perm f f n 0 :=
  ⟨fun _ _ => rfl, fun i h1 h2 => by omega⟩

theorem Adds.cons {perm : Nat → Perm} {f' : Nat → Pte}
    (h : Adds perm (update f n ((perm n).pte pa)) f' (n + 1) c) : Adds perm f f' n (c + 1) where
  old i hi := by
    rw [h.old i (by omega), update_of_ne (by omega)]
  new i h1 h2 := by
    rcases Nat.eq_or_lt_of_le h1 with rfl | h1
    · exact ⟨pa, by rw [h.old n (by omega), update_self]⟩
    · exact h.new i h1 (by omega)

/-- Everything free or held is a page that `kfree` accepts. -/
def AllOk (e : Nat) (k : Kmem) (X : Multiset Nat) : Prop := ∀ pa ∈ k.ledger.free + X, PageOk e pa

theorem AllOk.moves {X' : Multiset Nat} (h : AllOk e k X) (hmv : Moves t k.ledger X k'.ledger X') :
    AllOk e k' X' := by
  unfold AllOk
  rwa [hmv.same]

theorem AllOk.held (h : AllOk e k X) (hpa : pa ∈ X) : PageOk e pa :=
  h pa (Multiset.mem_add.mpr (.inr hpa))

theorem AllOk.left (h : AllOk e k (X + Y)) : AllOk e k X := by
  intro pa hpa
  rcases Multiset.mem_add.mp hpa with hpa | hpa
  · exact h pa (Multiset.mem_add.mpr (.inl hpa))
  · exact h.held (Multiset.mem_add.mpr (.inl hpa))

theorem AllOk.right (h : AllOk e k (X + Y)) : AllOk e k Y := by
  rw [add_comm] at h
  exact h.left

theorem AllOk.free (h : AllOk e k X) (hpa : pa ∈ k.freelist) :
    PageOk e pa := h pa (Multiset.mem_add.mpr (.inl hpa))

/-- The permissions `uvmalloc` maps with. -/
def userPerm (xperm : Perm) : Perm := ⟨true, xperm.w, xperm.x, true⟩

/-- One round of the loops of `uvmalloc` and `uvmcopy`: a page is allocated and
mapped at `n`; if either fails the page goes back and the loop is undone.  `F` are
the pages that the rounds before have mapped. -/
theorem succeeds_addPage {β : Type} (undo rest : Pgtbl → Kern β) {Q : β → Kmem → Prop} {perm : Perm}
    {F : Multiset Nat} (hn : 0 < k.freelist.length → n < MAXPAGE ∧ (pt.map n).v = false)
    (hok : AllOk e k (pt.tables + F)) (hundo : ∀ pt1 k1, pt1.map = pt.map →
      Moves t k.ledger (pt.tables + F) k1.ledger (pt1.tables + F) → Succeeds (undo pt1) k1 Q)
    (hrest : ∀ pt1 k1 mem, pt1.map = update pt.map n (perm.pte mem) →
      k1.freelist.length + 1 ≤ k.freelist.length →
      Moves t k.ledger (pt.tables + F) k1.ledger (pt1.tables + (mem ::ₘ F)) →
      Succeeds (rest pt1) k1 Q) :
    Succeeds (do
      match ← kalloc t with
      | none => undo pt
      | some mem =>
        let (ok, pt) ← mappages t pt (n * PGSIZE) PGSIZE mem perm
        if ok = false then do
          kfree e mem
          undo pt
        else rest pt) k Q := by
  refine succeeds_kalloc.seq fun o k1 ho => ?_
  cases o with
  | none =>
    have hk : k1.ledger = k.ledger := ho
    exact hundo pt k1 rfl (hk ▸ Moves.refl _ _ _)
  | some mem =>
    obtain ⟨hin, hlen, hmv1⟩ := ho
    obtain ⟨hnp, hzero⟩ := hn (length_pos_of_mem hin)
    refine (succeeds_mappages hnp hzero).seq fun r k2 ⟨hmv2, hlen2, hmap2⟩ => ?_
    obtain ⟨ok, pt2⟩ := r
    have hmv : Moves t k.ledger (pt.tables + F) k2.ledger (pt2.tables + (mem ::ₘ F)) := by
      refine (hmv1 (pt.tables + F)).trans ?_
      rw [← Multiset.add_cons]
      exact hmv2.frame _
    cases ok with
    | false =>
      refine (succeeds_kfree (hok.free hin)).seq fun _ k3 hmv3 => hundo pt2 k3 hmap2 ?_
      have h := hmv3 t (pt2.tables + F)
      rw [← Multiset.add_cons] at h
      exact hmv.trans h
    | true => exact hrest pt2 k2 mem hmap2 (by omega) hmv

theorem frames_snoc {g : Nat → Pte} {mem : Nat} {perm : Perm} (hn : n₀ ≤ n)
    (hg : g = update f n (perm.pte mem)) :
    frames g n₀ (n + 1 - n₀) = mem ::ₘ frames f n₀ (n - n₀) := by
  have hold : frames g n₀ (n - n₀) = frames f n₀ (n - n₀) :=
    frames_congr fun i _ hi => by rw [hg, update_of_ne (by omega)]
  have hnew : frames g n 1 = {mem} := by
    simp only [frames, hg, update_self]; rfl
  rw [show n + 1 - n₀ = (n - n₀) + 1 by omega, frames_add, show n₀ + (n - n₀) = n by omega, hold,
    hnew, add_comm, Multiset.singleton_add]

theorem clear_snoc {x : Pte} (hn : n₀ ≤ n) (hf : f n = Pte.zero) :
    clear (update f n x) n₀ (n + 1 - n₀) = clear f n₀ (n - n₀) := by
  funext i
  unfold clear
  by_cases hi : i = n
  · subst hi
    rw [if_pos (by omega), if_neg (by omega), hf]
  · rw [update_of_ne hi]
    by_cases hin : n₀ ≤ i ∧ i < n₀ + (n - n₀)
    · rw [if_pos hin, if_pos (by omega)]
    · rw [if_neg hin, if_neg (by omega)]

/-- The loop of `uvmalloc`, at page `n`; the pages from `n₀` on were added before.
Every round takes a page, so `B` bounds how far the loop can get. -/
theorem succeeds_uvmallocFrom (hB : B ≤ MAXPAGE) (c : Nat) (hn : n₀ ≤ n)
    (hroom : n + k.freelist.length ≤ B) (hfree : ∀ i, n ≤ i → i < B → pt.map i = Pte.zero)
    (hmine : ∀ i, n₀ ≤ i → i < n → Mapped (pt.map i))
    (hok : AllOk e k (pt.tables + frames pt.map n₀ (n - n₀))) :
    Succeeds (uvmallocFrom e t xperm (n₀ * PGSIZE) newsz c pt (n * PGSIZE)) k fun r k' =>
      r.1 = newsz ∧ Adds (fun _ => userPerm xperm) pt.map r.2.map n c ∧
        c + k'.freelist.length ≤ k.freelist.length ∧
        Moves t k.ledger (pt.tables + frames pt.map n₀ (n - n₀)) k'.ledger
          (r.2.tables + frames r.2.map n₀ (n - n₀ + c)) ∨
      r.1 = 0 ∧ r.2.map = clear pt.map n₀ (n - n₀) ∧
        Moves t k.ledger (pt.tables + frames pt.map n₀ (n - n₀)) k'.ledger r.2.tables := by
  induction c generalizing n pt k with
  | zero => exact Succeeds.pure (.inl ⟨rfl, Adds.nil _ _ _, by omega, Moves.refl _ _ _⟩)
  | succ c ih =>
    refine succeeds_addPage
      (fun pt => do
        let r ← uvmdealloc e pt (n * PGSIZE) (n₀ * PGSIZE)
        return (0, r.2))
      (fun pt => uvmallocFrom e t xperm (n₀ * PGSIZE) newsz c pt (n * PGSIZE + PGSIZE))
      (fun hpos => ⟨by omega, by rw [hfree n le_rfl (by omega)]; rfl⟩) hok
      (fun pt1 k1 hmap hmv => ?_) fun pt1 k1 mem hmap hlen hmv => ?_
    · -- giving up: the pages from `n₀` on are unmapped again
      have hnB : n ≤ MAXPAGE := by omega
      have hmin : min (n * PGSIZE) (n₀ * PGSIZE) = n₀ * PGSIZE :=
        Nat.min_eq_right (Nat.mul_le_mul_right _ hn)
      have hle : n * PGSIZE ≤ MAXVA := by
        have hnB : n ≤ 67108864 := hnB
        show n * 4096 ≤ 274877906944
        omega
      refine (succeeds_uvmdealloc hle (fun i h1 h2 => ?_) fun i h1 h2 => ?_).seq
        fun r k' h => Succeeds.pure (.inr ⟨rfl, ?_, ?_⟩)
      · rw [npages_mul (hn.trans hnB)] at h1
        rw [npages_mul hnB] at h2
        rw [hmap]; exact hmine i h1 h2
      · rw [npages_mul (hn.trans hnB)] at h1
        rw [npages_mul hnB] at h2
        rw [hmap]; exact hok.right.held (mem_frames h1 (by omega))
      · obtain ⟨hsz, -, hmap', -⟩ := h
        rw [hmin] at hsz
        rw [hsz, npages_mul hnB, npages_mul (hn.trans hnB), hmap] at hmap'
        exact hmap'
      · obtain ⟨hsz, htab, -, hmv'⟩ := h
        rw [hmin] at hsz
        have hmv' := hmv' t pt1.tables
        rw [hsz, npages_mul hnB, npages_mul (hn.trans hnB), hmap, add_comm, ← htab] at hmv'
        rw [← htab] at hmv
        exact hmv.trans hmv'
    · have hfr := frames_snoc hn hmap
      rw [← Nat.succ_mul]
      refine (ih (by omega) (by omega) (fun i h1 h2 => ?_) (fun i h1 h2 => ?_)
        ?_).mono fun r k' h => ?_
      · rw [hmap, update_of_ne (by omega)]; exact hfree i (by omega) h2
      · rw [hmap]
        by_cases hi : i = n
        · subst hi; rw [update_self]; exact ⟨rfl, rfl⟩
        · rw [update_of_ne hi]; exact hmine i h1 (by omega)
      · rw [hfr]; exact hok.moves hmv
      · rw [hfr] at h
        rcases h with ⟨hsz, hadd, hl, hmv'⟩ | ⟨hz, hclear, hmv'⟩
        · refine .inl ⟨hsz, ?_, by omega, ?_⟩
          · rw [hmap] at hadd; exact hadd.cons
          · rw [show n + 1 - n₀ + c = n - n₀ + (c + 1) by omega] at hmv'
            exact hmv.trans hmv'
        · refine .inr ⟨hz, ?_, hmv.trans hmv'⟩
          rw [hclear, hmap]
          exact clear_snoc hn (hfree n le_rfl (by omega))

/-- `uvmalloc` has nothing to do, or maps every page below `newsz`, or gives back
every page it mapped and returns 0. -/
inductive Alloc (t : Nat) (xperm : Perm) (k : Kmem) (pt : Pgtbl) (oldsz newsz : Nat) :
    Kmem → Nat × Pgtbl → Prop
  | same : newsz < oldsz → Alloc t xperm k pt oldsz newsz k (oldsz, pt)
  | done {k' : Kmem} {pt' : Pgtbl} : oldsz ≤ newsz → newsz ≤ MAXVA →
      Adds (fun _ => userPerm xperm) pt.map pt'.map (npages oldsz) (npages newsz - npages oldsz) →
      npages newsz + k'.freelist.length ≤ npages oldsz + k.freelist.length →
      Moves t k.ledger pt.tables k'.ledger
        (pt'.tables + frames pt'.map (npages oldsz) (npages newsz - npages oldsz)) →
      Alloc t xperm k pt oldsz newsz k' (newsz, pt')
  | fail {k' : Kmem} {pt' : Pgtbl} : pt'.map = pt.map →
      Moves t k.ledger pt.tables k'.ledger pt'.tables → Alloc t xperm k pt oldsz newsz k' (0, pt')

theorem succeeds_uvmalloc (hB : B ≤ MAXPAGE) (hroom : npages oldsz + k.freelist.length ≤ B)
    (hfree : ∀ i, npages oldsz ≤ i → i < B → pt.map i = Pte.zero) (hok : AllOk e k pt.tables) :
    Succeeds (uvmalloc e t pt oldsz newsz xperm) k fun r k' =>
      Alloc t xperm k pt oldsz newsz k' r := by
  unfold uvmalloc
  by_cases hlt : newsz < oldsz
  · rw [if_pos hlt]
    exact Succeeds.pure (.same hlt)
  · rw [if_neg hlt]
    have hfr : frames pt.map (npages oldsz) (npages oldsz - npages oldsz) = 0 := by
      rw [Nat.sub_self]; rfl
    rw [pgroundup_eq]
    refine (succeeds_uvmallocFrom hB _ le_rfl hroom hfree (fun i h1 h2 => by omega) ?_).mono
      fun r k' h => ?_
    · rwa [hfr, add_zero]
    · rw [hfr, add_zero, Nat.sub_self, clear_zero, Nat.zero_add] at h
      obtain ⟨sz, pt'⟩ := r
      rcases h with ⟨rfl, hadd, hlen, hmv⟩ | ⟨rfl, hmap, hmv⟩
      · -- the pages added are those up to the new size
        have hB' : B ≤ 67108864 := hB
        have hcount : (sz - npages oldsz * PGSIZE + PGSIZE - 1) / PGSIZE
            = (sz - npages oldsz * 4096 + 4095) / 4096 := rfl
        rw [hcount] at hadd hlen hmv
        have hsz : sz ≤ MAXVA := by
          show sz ≤ 274877906944
          omega
        have hdiff : (sz - npages oldsz * 4096 + 4095) / 4096 = npages sz - npages oldsz := by
          rw [npages_eq hsz]
          omega
        rw [hdiff] at hadd hlen hmv
        refine .done (by omega) hsz hadd ?_ hmv
        show npages sz + _ ≤ _
        omega
      · exact .fail hmap hmv

/-! ## freewalk -/

/-- A table that maps nothing gives back every page it consists of. -/
theorem succeeds_freewalk (pt : Tbl l) (hnone : ∀ va, (pt.leaf va).v = false)
    (hok : ∀ pa ∈ pt.tables, PageOk e pa) :
    Succeeds (freewalk e pt) k fun _ k' =>
      ∀ t X, Moves t k.ledger (pt.tables + X) k'.ledger X := by
  induction l generalizing k with
  | zero =>
    have hentry : ∀ i, (pt.entry i).v = false := by
      intro i
      have := hnone (i * PGSIZE)
      have hpx : px 0 (i * PGSIZE) = i := by
        apply Fin.ext
        show i.val * 4096 / 4096 % 512 = i.val
        omega
      rwa [Tbl.leaf, hpx] at this
    refine Succeeds.seq (Succeeds.forM (I := fun _ s => s = k) (fun i as s hs => ?_) _ rfl)
      fun _ k1 hk1 => ?_
    · subst hs
      simp only [hentry i, Bool.false_eq_true, false_and, if_false]
      exact Succeeds.pure rfl
    · subst hk1
      refine (succeeds_kfree (hok _ pt.addr_mem_tables)).mono fun _ k' h t X => ?_
      have := h t X
      rwa [← Multiset.singleton_add, ← tables_bottom] at this
  | succ l ih =>
    have hchild : ∀ i c, pt.child i = some c → ∀ va, (c.leaf va).v = false := by
      intro i c hc va
      obtain ⟨vb, hi, hs⟩ := Tbl.exists_px l va i
      have := hnone vb
      rw [Tbl.leaf, hi, hc] at this
      rw [← Tbl.leaf_congr c hs]
      exact this
    have hsub : ∀ i c, pt.child i = some c → ∀ pa ∈ c.tables, PageOk e pa := by
      intro i c hc pa hpa
      obtain ⟨R, hR⟩ := tables_child hc
      exact hok pa (by rw [hR]; exact Multiset.mem_add.mpr (.inl hpa))
    have hall : pt.tables = pt.addr ::ₘ
        ((List.finRange 512).map fun i => (pt.child i).elim 0 fun c => c.tables).sum := by
      rw [tables_node, Fin.sum_univ_def]
    -- what is left to give back is what the rest of the entries point to
    refine Succeeds.seq (Succeeds.forM (I := fun as k1 => ∀ t X, Moves t k.ledger
      (((List.finRange 512).map fun i => (pt.child i).elim 0 fun c => c.tables).sum + X) k1.ledger
      ((as.map fun i => (pt.child i).elim 0 fun c => c.tables).sum + X)) (fun i as k1 h => ?_) _
      (fun t X => Moves.refl _ _ _)) fun _ k1 hk1 => ?_
    · cases hc : pt.child i with
      | none =>
        refine Succeeds.pure fun t X => ?_
        have := h t X
        simpa only [map_cons, hc, elim_none, sum_cons, zero_add] using this
      | some c =>
        refine (ih c (hchild i c hc) (hsub i c hc)).mono fun _ k2 h2 t X => ?_
        refine (h t X).trans ?_
        have := h2 t ((as.map fun i => (pt.child i).elim 0 fun c => c.tables).sum + X)
        simpa only [map_cons, hc, elim_some, sum_cons, add_assoc] using this
    · have haddr : PageOk e pt.addr := hok pt.addr pt.addr_mem_tables
      refine (succeeds_kfree haddr).mono fun _ k' h t X => ?_
      rw [hall, Multiset.cons_add, ← Multiset.add_cons]
      have h1 := hk1 t (pt.addr ::ₘ X)
      simp only [map_nil, sum_nil, zero_add] at h1
      exact h1.trans (h t X)

theorem succeeds_uvmfree (hsz : sz ≤ MAXVA) (hmap : ∀ i, i < npages sz → Mapped (pt.map i))
    (hnone : ∀ i, npages sz ≤ i → (pt.map i).v = false)
    (hok : AllOk e k (pt.tables + frames pt.map 0 (npages sz))) :
    Succeeds (uvmfree e pt sz) k fun _ k' =>
      ∀ t X, Moves t k.ledger (pt.tables + frames pt.map 0 (npages sz) + X) k'.ledger X := by
  have hfree : ∀ (pt1 : Pgtbl) (k1 : Kmem), pt1.tables = pt.tables →
      pt1.map = clear pt.map 0 (npages sz) →
      (∀ t X, Moves t k.ledger (frames pt.map 0 (npages sz) + X) k1.ledger X) →
      Succeeds (freewalk e pt1) k1 fun _ k' =>
        ∀ t X, Moves t k.ledger (pt.tables + frames pt.map 0 (npages sz) + X) k'.ledger X := by
    intro pt1 k1 htab hm hmv
    refine (succeeds_freewalk pt1 (Tbl.leaf_of_map fun n => ?_) fun pa hpa => ?_).mono
      fun _ k' h t X => ?_
    · rw [hm]
      unfold clear
      split
      · rfl
      · exact hnone n (by omega)
    · rw [htab] at hpa; exact hok.left.held hpa
    · have h1 := hmv t (pt.tables + X)
      have h2 := h t X
      rw [htab] at h2
      rw [add_comm pt.tables, add_assoc]
      exact h1.trans h2
  unfold uvmfree
  by_cases h0 : 0 < sz
  · rw [if_pos h0]
    refine (succeeds_uvmunmap true (by rw [Nat.zero_add]; exact le_maxpage hsz)
      (fun i _ h => hmap i (by omega))
      fun _ i h1 h2 => hok.right.held (mem_frames h1 h2)).seq
      fun pt1 k1 ⟨htab, hm, hmv⟩ => hfree pt1 k1 htab hm hmv
  · rw [if_neg h0]
    have hnp : npages sz = 0 := by
      obtain rfl : sz = 0 := by omega
      rfl
    refine Succeeds.seq (Succeeds.pure (Q := fun pt1 k1 => pt1 = pt ∧ k1 = k) ⟨rfl, rfl⟩)
      fun pt1 k1 ⟨h1, h2⟩ => ?_
    subst h1 h2
    refine hfree pt1 k1 rfl ?_ fun t X => ?_
    · rw [hnp, clear_zero]
    · rw [hnp, frames, zero_add]; exact Moves.refl _ _ _

/-! ## uvmcopy -/

/-- `uvmcopy` maps a copy of every page of `old`, or gives back what it has taken. -/
theorem succeeds_uvmcopyFrom (c : Nat) (hnc : n + c ≤ MAXPAGE)
    (hold : ∀ i, n ≤ i → i < n + c → Mapped (old.map i)) (hroom : n + k.freelist.length ≤ B)
    (hfree : ∀ i, n ≤ i → i < B → pt.map i = Pte.zero) (hmine : ∀ i, i < n → Mapped (pt.map i))
    (hok : AllOk e k (pt.tables + frames pt.map 0 n)) :
    Succeeds (uvmcopyFrom e t old c pt (n * PGSIZE)) k fun r k' =>
      r.1 = true ∧ Adds (fun i => (old.map i).perm) pt.map r.2.map n c ∧
        Moves t k.ledger (pt.tables + frames pt.map 0 n) k'.ledger
          (r.2.tables + frames r.2.map 0 (n + c)) ∧ n + c ≤ B ∨
      r.1 = false ∧ r.2.map = clear pt.map 0 n ∧
        Moves t k.ledger (pt.tables + frames pt.map 0 n) k'.ledger r.2.tables := by
  induction c generalizing n pt k with
  | zero =>
    exact Succeeds.pure (.inl ⟨rfl, Adds.nil _ _ _, Moves.refl _ _ _, by omega⟩)
  | succ c ih =>
    have hnp : n < MAXPAGE := by omega
    have hleaf := Tbl.map_eq old (lt_vpages hnp)
    have hv := (hold n le_rfl (by omega)).1
    have hpres : old.present (n * PGSIZE) = true := by
      rw [hleaf] at hv; exact Tbl.present_of_leaf hv
    simp only [uvmcopyFrom, walk_none old (lt_maxva hnp), pure_bind, hpres, ← hleaf, hv,
      Bool.true_eq_false, if_false]
    refine succeeds_addPage
      (fun new => do
        let new ← uvmunmap e new 0 (n * PGSIZE / PGSIZE) true
        return (false, new))
      (fun new => uvmcopyFrom e t old c new (n * PGSIZE + PGSIZE))
      (fun hpos => ⟨hnp, by rw [hfree n le_rfl (by omega)]; rfl⟩) hok
      (fun pt1 k1 hmap hmv => ?_) fun pt1 k1 mem hmap hlen hmv => ?_
    · rw [Nat.mul_div_cancel _ (by decide)]
      refine (succeeds_uvmunmap (n := 0) true (by omega) (fun i _ h => ?_) fun _ i h1 h2 => ?_).seq
        fun pt2 k2 ⟨htab, hm, hmv'⟩ => Succeeds.pure (.inr ⟨rfl, ?_, ?_⟩)
      · rw [hmap]; exact hmine i (by omega)
      · rw [hmap]; exact hok.right.held (mem_frames h1 h2)
      · rw [hm, hmap]
      · have hmv' := hmv' t pt1.tables
        rw [hmap, add_comm, ← htab] at hmv'
        rw [← htab] at hmv
        exact hmv.trans hmv'
    · have hfr := frames_snoc (Nat.zero_le n) hmap
      simp only [Nat.sub_zero] at hfr
      rw [← Nat.succ_mul]
      refine (ih (by omega) (fun i h1 h2 => hold i (by omega) (by omega)) (by omega)
        (fun i h1 h2 => ?_) (fun i h1 => ?_) ?_).mono fun r k' h => ?_
      · rw [hmap, update_of_ne (by omega)]; exact hfree i (by omega) h2
      · rw [hmap]
        by_cases hi : i = n
        · subst hi; rw [update_self]
          exact ⟨rfl, (hold i le_rfl (by omega)).2⟩
        · rw [update_of_ne hi]; exact hmine i (by omega)
      · rw [hfr]; exact hok.moves hmv
      · rw [hfr] at h
        rcases h with ⟨hsz, hadd, hmv', hle⟩ | ⟨hz, hclear, hmv'⟩
        · refine .inl ⟨hsz, ?_, ?_, by omega⟩
          · rw [hmap] at hadd; exact hadd.cons
          · rw [show n + 1 + c = n + (c + 1) by omega] at hmv'
            exact hmv.trans hmv'
        · refine .inr ⟨hz, ?_, hmv.trans hmv'⟩
          rw [hclear, hmap]
          have := clear_snoc (x := (old.map n).perm.pte mem) (Nat.zero_le n)
            (hfree n le_rfl (by omega))
          simpa only [Nat.sub_zero] using this

theorem succeeds_uvmcopy (hsz : sz ≤ MAXVA) (hold : ∀ i, i < npages sz → Mapped (old.map i))
    (hroom : k.freelist.length ≤ B) (hfree : ∀ i, i < B → pt.map i = Pte.zero)
    (hok : AllOk e k pt.tables) :
    Succeeds (uvmcopy e t old pt sz) k fun r k' =>
      r.1 = true ∧ Adds (fun i => (old.map i).perm) pt.map r.2.map 0 (npages sz) ∧
        Moves t k.ledger pt.tables k'.ledger (r.2.tables + frames r.2.map 0 (npages sz)) ∧
        npages sz ≤ B ∨
      r.1 = false ∧ r.2.map = pt.map ∧ Moves t k.ledger pt.tables k'.ledger r.2.tables := by
  have hcount : (sz + PGSIZE - 1) / PGSIZE = npages sz := (npages_eq hsz).symm
  have h0 : frames pt.map 0 0 = 0 := rfl
  unfold uvmcopy
  rw [hcount, show (0 : Nat) = 0 * PGSIZE from rfl]
  refine (succeeds_uvmcopyFrom _ (by rw [Nat.zero_add]; exact le_maxpage hsz)
    (fun i _ h => hold i (by omega)) (by omega) (fun i _ h => hfree i h) (fun i h => by omega)
    ?_).mono fun r k' h => ?_
  · rwa [h0, add_zero]
  · rwa [h0, add_zero, Nat.zero_add, clear_zero] at h

/-! ## uvmclear -/

theorem succeeds_uvmclear (hn : n < MAXPAGE) (hv : (pt.map n).v = true) :
    Succeeds (uvmclear pt (n * PGSIZE)) k fun pt' k' =>
      k' = k ∧ pt'.tables = pt.tables ∧
      pt'.map = update pt.map n { pt.map n with u := false } := by
  have hleaf := Tbl.map_eq pt (lt_vpages hn)
  have hpres : pt.present (n * PGSIZE) = true := by
    rw [hleaf] at hv; exact Tbl.present_of_leaf hv
  simp only [uvmclear, walk_none pt (lt_maxva hn), pure_bind, hpres, Bool.true_eq_false, if_false]
  refine Succeeds.pure ⟨rfl, Tbl.tables_put .., ?_⟩
  rw [Tbl.map_put (lt_vpages hn) _ hpres, ← hleaf]

end Xv6.Mem
