/-
# `Xv6.Mem.ExecSpec` — what `exec` does to the address space

The shape of a user address space, and that `proc_pagetable`, `uvmalloc`,
`proc_freepagetable` and `exec` build it, keep it and take it apart, without a panic
and with every page accounted for, whichever allocation fails.
-/
import Xv6.Mem.Exec
import Xv6.Mem.VmSpec

namespace Xv6.Mem

open Machine Function Multiset

/-- The page of the trapframe. -/
abbrev TFPAGE : Nat := TRAPFRAME / PGSIZE

/-- The page of the trampoline. -/
abbrev TRPAGE : Nat := TRAMPOLINE / PGSIZE

/-- User pages `0`, ..., `n - 1`, the trapframe and the trampoline are mapped, and
nothing else.  The user may access the user pages except for the guard page. -/
structure Shape (im : Image) (pt : Pgtbl) (tf n : Nat) (guard : Option Nat) : Prop where
  room : n ≤ TFPAGE
  user : ∀ i, i < n → Mapped (pt.map i) ∧ ((pt.map i).u = true ↔ guard ≠ some i)
  trapframe : pt.map TFPAGE = (Perm.mk true true false false).pte tf
  trampoline : pt.map TRPAGE = (Perm.mk true false true false).pte im.trampoline
  rest : ∀ i, n ≤ i → i ≠ TFPAGE → i ≠ TRPAGE → pt.map i = Pte.zero
  inside : ∀ g, guard = some g → g < n

/-- The pages of an address space of size `sz`. -/
def owned (pt : Pgtbl) (sz : Nat) : Multiset Nat := pt.tables + frames pt.map 0 (npages sz)

variable {pt pt' : Pgtbl} {sz sz' n i m va : Nat} {g : Option Nat}

theorem owned_zero (pt : Pgtbl) : owned pt 0 = pt.tables := add_zero _

theorem owned_congr (ht : pt'.tables = pt.tables) (hn : npages sz' = npages sz)
    (hm : ∀ i, i < npages sz → (pt'.map i).pa = (pt.map i).pa) : owned pt' sz' = owned pt sz := by
  unfold owned
  rw [ht, hn, frames_congr fun i _ hi => hm i (by omega)]

/-- An address space, in a system with free pages to grow it by. -/
structure Space (im : Image) (k : Kmem) (pt : Pgtbl) (tf sz : Nat) (guard : Option Nat) :
    Prop where
  shape : Shape im pt tf (npages sz) guard
  size : sz ≤ TRAPFRAME
  room : k.freelist.length + (owned pt sz).card ≤ TFPAGE
  ok : AllOk im.kend k (owned pt sz)

variable {im : Image} {t tf : Nat} {k : Kmem} {k' : Kmem} {xperm : Perm}

theorem card_of_moves {k : Kmem} {X X' : Multiset Nat} (h : Moves t k.ledger X k'.ledger X') :
    k'.freelist.length + X'.card = k.freelist.length + X.card := by
  have := congrArg Multiset.card h.same
  simpa only [card_add, Kmem.ledger, coe_card] using this

theorem size_le_maxva (h : sz ≤ TRAPFRAME) : sz ≤ MAXVA := by
  have h : sz ≤ 274877898752 := h
  show sz ≤ 274877906944
  omega

theorem size_of_npages (hsz : sz ≤ MAXVA) (h : npages sz ≤ TFPAGE) : sz ≤ TRAPFRAME := by
  rw [npages_eq hsz] at h
  have h : (sz + 4095) / 4096 ≤ 67108862 := h
  show sz ≤ 274877898752
  omega

/-! ## Making and freeing a table -/

theorem succeeds_uvmcreate : Succeeds (uvmcreate t) k fun r k' =>
    match r with
    | none => k'.ledger = k.ledger
    | some pt => pt.map = (fun _ => Pte.zero) ∧ Moves t k.ledger 0 k'.ledger pt.tables := by
  refine succeeds_kalloc.seq fun r k' h => ?_
  cases r with
  | none => exact Succeeds.pure h
  | some pa =>
    refine Succeeds.pure ⟨Tbl.map_fresh pa, ?_⟩
    rw [Tbl.tables_fresh]
    exact h.2.2 0

/-- A table with no user pages, as the error exits of `proc_pagetable` free it. -/
theorem succeeds_uvmfree_empty (hm : ∀ i, (pt.map i).v = false) (hok : AllOk im.kend k pt.tables) :
    Succeeds (uvmfree im.kend pt 0) k fun _ k' => Moves t k.ledger pt.tables k'.ledger 0 := by
  have hfr : frames pt.map 0 (npages 0) = 0 := rfl
  refine (succeeds_uvmfree (Nat.zero_le _) (fun i hi => absurd hi (Nat.not_lt_zero i))
    (fun i _ => hm i) (by rwa [hfr, add_zero])).mono fun _ k' h => ?_
  have := h t 0
  rwa [hfr, add_zero, add_zero] at this

theorem succeeds_procPagetable (hok : AllOk im.kend k 0) :
    Succeeds (procPagetable im t tf) k fun r k' =>
      match r with
      | none => Moves t k.ledger 0 k'.ledger 0
      | some pt => Shape im pt tf 0 none ∧ Moves t k.ledger 0 k'.ledger pt.tables := by
  refine succeeds_uvmcreate.seq fun r k1 h => ?_
  cases r with
  | none => exact Succeeds.pure (by show Moves t k.ledger 0 k1.ledger 0; rw [h]; exact Moves.refl _ _ _)
  | some pt =>
    obtain ⟨hm, hmv⟩ := h
    refine (succeeds_mappages (n := TRPAGE) (by decide) (by rw [hm]; rfl)).seq
      fun ⟨ok, pt1⟩ k2 ⟨hmv1, _, hm1⟩ => ?_
    replace hmv1 := hmv.trans hmv1
    cases ok with
    | false =>
      refine (succeeds_uvmfree_empty (fun i => ?_) (hok.moves hmv1)).seq fun _ k3 h3 =>
        Succeeds.pure (hmv1.trans h3)
      rw [hm1, hm]; rfl
    | true =>
      refine (succeeds_mappages (n := TFPAGE) (by decide) ?_).seq
        fun ⟨ok, pt2⟩ k3 ⟨hmv2, _, hm2⟩ => ?_
      · rw [hm1, if_pos rfl, update_of_ne (by decide), hm]; rfl
      replace hmv2 := hmv1.trans hmv2
      simp only [if_true] at hm1
      cases ok with
      | false =>
        simp only [Bool.false_eq_true, if_false] at hm2
        refine (succeeds_uvmunmap (n := TRPAGE) false (by decide) (fun i h1 h2 => ?_)
          nofun).seq fun pt3 k4 ⟨ht, hm3, hmv3⟩ => ?_
        · obtain rfl : i = TRPAGE := by omega
          rw [hm2, hm1, update_self]
          exact ⟨rfl, rfl⟩
        have hback := hmv3 t pt2.tables
        simp only [given, Bool.false_eq_true, if_false, zero_add] at hback
        rw [← ht] at hback
        rw [← ht] at hmv2
        refine (succeeds_uvmfree_empty (fun i => ?_)
          (hok.moves (hmv2.trans hback))).seq fun _ k5 h5 =>
          Succeeds.pure ((hmv2.trans hback).trans h5)
        rw [hm3, hm2, hm1, hm]
        unfold clear
        split
        · rfl
        · rw [update_of_ne (by omega)]; rfl
      | true =>
        simp only [if_true] at hm2
        refine Succeeds.pure ⟨⟨by decide, fun i hi => absurd hi (Nat.not_lt_zero i), ?_, ?_,
          fun i _ h1 h2 => ?_, fun g h => by cases h⟩, hmv2⟩
        · rw [hm2, update_self]
        · rw [hm2, update_of_ne (by decide), hm1, update_self]
        · rw [hm2, update_of_ne h1, hm1, update_of_ne h2, hm]

/-- Zeroing the entries of the trampoline and the trapframe leaves the user pages. -/
theorem Shape.cleared (h : Shape im pt tf n g) :
    clear (clear pt.map TRPAGE 1) TFPAGE 1 i = if i < n then pt.map i else Pte.zero := by
  have hroom : n ≤ 67108862 := h.room
  have hrest := h.rest i
  show (if 67108862 ≤ i ∧ i < 67108862 + 1 then Pte.zero else
    if 67108863 ≤ i ∧ i < 67108863 + 1 then Pte.zero else pt.map i) = _
  by_cases hi : i < n
  · rw [if_pos hi, if_neg (by omega), if_neg (by omega)]
  · rw [if_neg hi]
    split
    · rfl
    · split
      · rfl
      · exact hrest (by omega) (by show i ≠ 67108862; omega) (by show i ≠ 67108863; omega)

theorem succeeds_procFreepagetable (h : Shape im pt tf (npages sz) g) (hsz : sz ≤ TRAPFRAME)
    (hok : AllOk im.kend k (owned pt sz)) :
    Succeeds (procFreepagetable im pt sz) k fun _ k' =>
      ∀ t X, Moves t k.ledger (owned pt sz + X) k'.ledger X := by
  refine (succeeds_uvmunmap (n := TRPAGE) false (by decide) (fun i h1 h2 => ?_)
    nofun).seq fun pt1 k1 ⟨ht1, hm1, hmv1⟩ => ?_
  · obtain rfl : i = TRPAGE := by omega
    rw [h.trampoline]; exact ⟨rfl, rfl⟩
  refine (succeeds_uvmunmap (n := TFPAGE) false (by decide) (fun i h1 h2 => ?_)
    nofun).seq fun pt2 k2 ⟨ht2, hm2, hmv2⟩ => ?_
  · obtain rfl : i = TFPAGE := by omega
    rw [hm1]
    unfold clear
    rw [if_neg (by decide), h.trapframe]
    exact ⟨rfl, rfl⟩
  have hmv : ∀ t X, Moves t k.ledger X k2.ledger X := by
    intro t X
    have h1 := hmv1 t X
    have h2 := hmv2 t X
    simp only [given, Bool.false_eq_true, if_false, zero_add] at h1 h2
    exact h1.trans h2
  have hmap : ∀ i, pt2.map i = if i < npages sz then pt.map i else Pte.zero := by
    intro i
    rw [hm2, hm1]
    exact h.cleared
  have hown : owned pt2 sz = owned pt sz :=
    owned_congr (ht2.trans ht1) rfl fun i hi => by rw [hmap, if_pos hi]
  refine (succeeds_uvmfree (size_le_maxva hsz) (fun i hi => ?_) (fun i hi => ?_) ?_).mono
    fun _ k' h' t X => ?_
  · rw [hmap, if_pos hi]; exact (h.user i hi).1
  · rw [hmap, if_neg (by omega)]; rfl
  · show AllOk im.kend k2 (owned pt2 sz)
    rw [hown]
    exact hok.moves (hmv 0 _)
  · have h' : Moves t k2.ledger (owned pt2 sz + X) k'.ledger X := h' t X
    rw [hown] at h'
    exact (hmv t _).trans h'

/-! ## Growing -/

/-- What `uvmalloc` leaves: on failure the space it found, otherwise one of the size
it returns, which covers `newsz`. -/
def GrownSpace (im : Image) (t tf : Nat) (g : Option Nat) (k : Kmem) (pt : Pgtbl) (sz newsz : Nat)
    (k' : Kmem) (r : Nat × Pgtbl) : Prop :=
  if r.1 = 0 then Space im k' r.2 tf sz g ∧ Moves t k.ledger (owned pt sz) k'.ledger (owned r.2 sz)
  else Space im k' r.2 tf r.1 g ∧ Moves t k.ledger (owned pt sz) k'.ledger (owned r.2 r.1) ∧
    r.1 = max sz newsz

theorem Shape.zero_above (h : Shape im pt tf n g) (h1 : n ≤ i) (h2 : i < TFPAGE) :
    pt.map i = Pte.zero := by
  have h2 : i < 67108862 := h2
  exact h.rest i h1 (by show i ≠ 67108862; omega) (by show i ≠ 67108863; omega)

/-- Pages added above the user pages. -/
theorem Shape.adds (h : Shape im pt tf n g) (hnm : n ≤ m) (hm : m ≤ TFPAGE)
    (ha : Adds (fun _ => userPerm xperm) pt.map pt'.map n (m - n)) : Shape im pt' tf m g := by
  have hm' : m ≤ 67108862 := hm
  refine ⟨hm, fun i hi => ?_, ?_, ?_, fun i h1 h2 h3 => ?_, fun g hg => (h.inside g hg).trans_le hnm⟩
  · by_cases hin : i < n
    · rw [ha.old i (.inl hin)]; exact h.user i hin
    · obtain ⟨pa, hpa⟩ := ha.new i (by omega) (by omega)
      rw [hpa]
      refine ⟨⟨rfl, rfl⟩, fun _ hg => ?_, fun _ => rfl⟩
      exact hin (h.inside i hg)
  · rw [ha.old TFPAGE (.inr (by omega))]; exact h.trapframe
  · rw [ha.old TRPAGE (.inr (by show n + (m - n) ≤ 67108863; omega))]; exact h.trampoline
  · rw [ha.old i (.inr (by omega))]; exact h.rest i (by omega) h2 h3

/-- The same shape after pages have moved. -/
theorem Space.moved {g' : Option Nat} (h : Space im k pt tf sz g)
    (hs : Shape im pt' tf (npages sz') g') (hsz : sz' ≤ MAXVA)
    (hmv : Moves t k.ledger (owned pt sz) k'.ledger (owned pt' sz')) :
    Space im k' pt' tf sz' g' where
  shape := hs
  size := size_of_npages hsz hs.room
  room := by
    have := card_of_moves hmv
    have := h.room
    omega
  ok := h.ok.moves hmv

theorem Shape.of_map (h : Shape im pt tf n g) (hm : pt'.map = pt.map) : Shape im pt' tf n g := by
  obtain ⟨h1, h2, h3, h4, h5, h6⟩ := h
  rw [← hm] at h2 h3 h4 h5
  exact ⟨h1, h2, h3, h4, h5, h6⟩

theorem Space.npages_le (h : Space im k pt tf sz g) : npages sz + k.freelist.length ≤ TFPAGE := by
  have hroom := h.room
  unfold owned at hroom
  rw [card_add, card_frames] at hroom
  omega

theorem succeeds_grow {newsz : Nat} (h : Space im k pt tf sz g) :
    Succeeds (uvmalloc im.kend t pt sz newsz xperm) k fun r k' =>
      GrownSpace im t tf g k pt sz newsz k' r := by
  have hB : TFPAGE ≤ MAXPAGE := by decide
  refine (succeeds_uvmalloc hB h.npages_le
    (fun i => h.shape.zero_above) h.ok.left).mono fun r k' ha => ?_
  unfold GrownSpace
  cases ha with
  | same hlt =>
    rw [if_neg (by show ¬ sz = 0; omega)]
    exact ⟨h, Moves.refl _ _ _, (Nat.max_eq_left hlt.le).symm⟩
  | @fail k' pt' hm hmv =>
    have hmv' : Moves t k.ledger (owned pt sz) k'.ledger (owned pt' sz) := by
      unfold owned
      rw [hm]
      exact hmv.frame _
    exact ⟨h.moved (h.shape.of_map hm) (size_le_maxva h.size) hmv', hmv'⟩
  | @done k' pt' hle hmax hadds hlen hmv =>
    have hnp : npages sz ≤ npages newsz := npages_mono hmax hle
    have htf : npages newsz ≤ TFPAGE := by
      have := h.npages_le
      omega
    have hold : frames pt'.map 0 (npages sz) = frames pt.map 0 (npages sz) :=
      frames_congr fun i _ hi => by rw [hadds.old i (.inl (by omega))]
    have hsplit : frames pt'.map 0 (npages newsz)
        = frames pt'.map 0 (npages sz)
          + frames pt'.map (npages sz) (npages newsz - npages sz) := by
      have := frames_add pt'.map 0 (npages sz) (npages newsz - npages sz)
      rwa [Nat.add_sub_cancel' hnp, Nat.zero_add] at this
    have hmv' : Moves t k.ledger (owned pt sz) k'.ledger (owned pt' newsz) := by
      have := hmv.frame (frames pt.map 0 (npages sz))
      unfold owned
      rw [hsplit, hold, add_comm (frames pt.map 0 (npages sz)), ← add_assoc]
      exact this
    have hsp := h.moved (h.shape.adds hnp htf hadds) hmax hmv'
    by_cases h0 : newsz = 0
    · -- size 0 looks like a failure, but then nothing was asked for
      obtain rfl : sz = newsz := by omega
      rw [if_pos h0]
      exact ⟨hsp, hmv'⟩
    · rw [if_neg h0]
      exact ⟨hsp, hmv', (Nat.max_eq_right hle).symm⟩

/-! ## Loading a program -/

theorem walkaddr_ne_zero (h : Space im k pt tf sz none) (hi : i < npages sz) :
    walkaddr pt (i * PGSIZE) ≠ 0 := by
  have himax : i < MAXPAGE := lt_of_lt_of_le hi (le_maxpage (size_le_maxva h.size))
  obtain ⟨⟨hv, -⟩, hu⟩ := h.shape.user i hi
  have hu : (pt.map i).u = true := hu.mpr nofun
  have hpa : PageOk im.kend (pt.map i).pa :=
    h.ok.right.held (mem_frames (Nat.zero_le i) (by omega))
  rw [Tbl.map_eq pt (lt_vpages himax)] at hv hu hpa
  have hpres := Tbl.present_of_leaf hv
  have hlt := lt_maxva himax
  unfold walkaddr
  rw [if_neg (by omega)]
  simp only [hpres, hv, hu, Bool.true_eq_false, if_false]
  have hbase : 0x80000000 ≤ im.kend := im.base
  have := hpa.2.1
  omega

theorem succeeds_loadsegFrom {loads : Nat → Bool} : ∀ {n i : Nat},
    (∀ j, i ≤ j → j < i + n → walkaddr pt ((va + j * PGSIZE) % 2 ^ 64) ≠ 0) →
    Succeeds (loadsegFrom pt va loads n i) k fun _ k' => k' = k
  | 0, _, _ => Succeeds.pure rfl
  | n + 1, i, h => by
    rw [loadsegFrom, if_neg (h i le_rfl (by omega))]
    split
    · exact Succeeds.pure rfl
    · exact succeeds_loadsegFrom fun j h1 h2 => h j (by omega) (by omega)

/-- The segment lies in the space. -/
theorem succeeds_loadseg {len : Nat} {loads : Nat → Bool} (h : Space im k pt tf sz none)
    (hva : va % PGSIZE = 0) (hlen : va + len ≤ sz) :
    Succeeds (loadseg pt va len loads) k fun _ k' => k' = k := by
  refine succeeds_loadsegFrom fun j _ hj => ?_
  have hj : j < 0 + (len + 4096 - 1) / 4096 := hj
  have hva : va % 4096 = 0 := hva
  have hsz : sz ≤ 274877906944 := size_le_maxva h.size
  have hpage : (va + j * PGSIZE) % 2 ^ 64 = (va / 4096 + j) * PGSIZE := by
    show (va + j * 4096) % 18446744073709551616 = (va / 4096 + j) * 4096
    omega
  rw [hpage]
  refine walkaddr_ne_zero h ?_
  rw [npages_eq (size_le_maxva h.size)]
  omega

theorem toNat_add_of_not_lt {a b : UInt64} (h : ¬ a + b < a) :
    (a + b).toNat = a.toNat + b.toNat := by
  have h := mt UInt64.lt_iff_toNat_lt.mpr h
  rw [UInt64.toNat_add] at h ⊢
  have := b.toNat_lt
  omega

/-- A loop that keeps the space, whether it ends or jumps to `bad`. -/
theorem succeeds_execLoad {loads : Nat → Nat → Bool} : ∀ (phs : List (Option Proghdr)) {i : Nat}
    {pt : Pgtbl} {sz : Nat} {k : Kmem}, Space im k pt tf sz none →
    Succeeds (execLoad im t loads phs i pt sz) k fun r k' =>
      Space im k' r.2.1 tf r.2.2 none ∧
      Moves t k.ledger (owned pt sz) k'.ledger (owned r.2.1 r.2.2)
  | [], _, _, _, _, h | none :: _, _, _, _, _, h => Succeeds.pure ⟨h, Moves.refl _ _ _⟩
  | some ph :: phs, i, pt, sz, k, h => by
    rw [execLoad]
    split
    · exact succeeds_execLoad phs h
    split
    · exact Succeeds.pure ⟨h, Moves.refl _ _ _⟩
    split
    · exact Succeeds.pure ⟨h, Moves.refl _ _ _⟩
    split
    · exact Succeeds.pure ⟨h, Moves.refl _ _ _⟩
    rename_i hfile hwrap halign
    refine (succeeds_grow h).seq fun ⟨sz1, pt1⟩ k1 hg => ?_
    unfold GrownSpace at hg
    simp only at hg ⊢
    by_cases h0 : sz1 = 0
    · rw [if_pos h0] at hg
      rw [if_pos h0]
      exact Succeeds.pure hg
    · rw [if_neg h0] at hg
      rw [if_neg h0]
      obtain ⟨hsp, hmv, hmax⟩ := hg
      have hend : ph.vaddr.toNat + ph.filesz.toUInt32.toNat ≤ sz1 := by
        have h1 := toNat_add_of_not_lt hwrap
        have h2 : ¬ ph.memsz.toNat < ph.filesz.toNat := mt UInt64.lt_iff_toNat_lt.mpr hfile
        have h3 : ph.filesz.toUInt32.toNat ≤ ph.filesz.toNat := by
          rw [UInt64.toNat_toUInt32]; exact Nat.mod_le _ _
        omega
      refine (succeeds_loadseg hsp (by omega) hend).seq fun ok k2 hk => ?_
      subst hk
      split
      · exact Succeeds.pure ⟨hsp, hmv⟩
      · exact (succeeds_execLoad phs hsp).mono fun r k' ⟨h1, h2⟩ => ⟨h1, hmv.trans h2⟩

/-! ## exec -/

/-- `uvmclear` makes a user page the guard page. -/
theorem Shape.guarded (h : Shape im pt tf m none) (hn : n < m)
    (hm : pt'.map = Function.update pt.map n { pt.map n with u := false }) :
    Shape im pt' tf m (some n) := by
  have hroom : m ≤ 67108862 := h.room
  refine ⟨h.room, fun i hi => ?_, ?_, ?_, fun i h1 h2 h3 => ?_, fun g hg => ?_⟩
  · obtain ⟨hmap, hu⟩ := h.user i hi
    by_cases hin : i = n
    · subst hin
      rw [hm, update_self]
      exact ⟨hmap, ⟨Bool.noConfusion, absurd rfl⟩⟩
    · rw [hm, update_of_ne hin]
      refine ⟨hmap, fun _ hg => hin (Option.some.inj hg).symm, fun _ => hu.mpr nofun⟩
  · rw [hm, update_of_ne (by show 67108862 ≠ n; omega)]; exact h.trapframe
  · rw [hm, update_of_ne (by show 67108863 ≠ n; omega)]; exact h.trampoline
  · rw [hm, update_of_ne (by omega)]; exact h.rest i h1 h2 h3
  · cases hg; exact hn

/-- A space with a guard page below the stack, or everything back. -/
def Exec (im : Image) (t tf : Nat) (k k' : Kmem) : Option Loaded → Prop
  | none => Moves t k.ledger 0 k'.ledger 0
  | some l => Moves t k.ledger 0 k'.ledger (owned l.pagetable l.sz) ∧
      Space im k' l.pagetable tf l.sz (some (l.sz / PGSIZE - (USERSTACK + 1)))

/-- The exit `bad` gives back the space built so far. -/
theorem succeeds_execBad {k0 : Kmem} (h : Space im k pt tf sz g)
    (hmv : Moves t k0.ledger 0 k.ledger (owned pt sz)) :
    Succeeds (execBad im pt sz) k fun r k' => Exec im t tf k0 k' r := by
  refine (succeeds_procFreepagetable h.shape h.size h.ok).seq fun _ k' h' => Succeeds.pure ?_
  have := h' t 0
  rw [add_zero] at this
  exact hmv.trans this

theorem succeeds_execFrom {k0 : Kmem} {argv : List Nat} (h : Space im k pt tf (n * PGSIZE) none)
    (hmv : Moves t k0.ledger 0 k.ledger (owned pt (n * PGSIZE))) :
    Succeeds (execFrom im t argv pt (n * PGSIZE)) k fun r k' => Exec im t tf k0 k' r := by
  have hsz : n * 4096 ≤ 274877898752 := h.size
  have hnew : (n * PGSIZE + (USERSTACK + 1) * PGSIZE) % 2 ^ 64 = (n + 3) * PGSIZE := by
    show (n * 4096 + 3 * 4096) % 18446744073709551616 = (n + 3) * 4096
    omega
  rw [execFrom, hnew]
  refine (succeeds_grow h).seq fun ⟨sz1, pt1⟩ k1 hg => ?_
  unfold GrownSpace at hg
  simp only at hg ⊢
  by_cases h0 : sz1 = 0
  · rw [if_pos h0] at hg
    rw [if_pos h0]
    exact succeeds_execBad hg.1 (hmv.trans hg.2)
  · rw [if_neg h0] at hg
    obtain ⟨hsp, hmv1, hmax⟩ := hg
    obtain rfl : sz1 = (n + 3) * PGSIZE := by
      rw [hmax]; exact Nat.max_eq_right (Nat.mul_le_mul_right _ (Nat.le_add_right n 3))
    have hsz1 : (n + 3) * 4096 ≤ 274877898752 := hsp.size
    have hnp : npages ((n + 3) * PGSIZE) = n + 3 := npages_mul (by show n + 3 ≤ 67108864; omega)
    have hstack : (n + 3) * PGSIZE - (USERSTACK + 1) * PGSIZE = n * PGSIZE := by
      show (n + 3) * 4096 - 3 * 4096 = n * 4096
      omega
    have hg : (n + 3) * PGSIZE / PGSIZE - (USERSTACK + 1) = n := by
      show (n + 3) * 4096 / 4096 - 3 = n
      omega
    rw [hstack]
    refine (succeeds_uvmclear (by show n < 67108864; omega)
      (hsp.shape.user n (by omega)).1.1).seq fun pt2 k2 ⟨hk, ht, hm⟩ => ?_
    subst hk
    have hown : owned pt2 ((n + 3) * PGSIZE) = owned pt1 ((n + 3) * PGSIZE) :=
      owned_congr ht rfl fun i _ => by
        rw [hm]
        by_cases hi : i = n
        · subst hi; rw [update_self]
        · rw [update_of_ne hi]
    have hmv2 : Moves t k0.ledger 0 k2.ledger (owned pt2 ((n + 3) * PGSIZE)) := by
      rw [hown]; exact hmv.trans hmv1
    have hsp2 : Space im k2 pt2 tf ((n + 3) * PGSIZE) (some n) :=
      hsp.moved (t := t) (hsp.shape.guarded (by omega) hm) (size_le_maxva hsp.size)
        (by rw [hown]; exact Moves.refl _ _ _)
    cases execStack pt2 ((n + 3) * PGSIZE) argv with
    | none => exact succeeds_execBad hsp2 hmv2
    | some argc => exact Succeeds.pure ⟨hmv2, by simp only [hg]; exact hsp2⟩

theorem succeeds_execImage {file : Option Elf} {argv : List Nat} (hok : AllOk im.kend k 0)
    (hroom : k.freelist.length ≤ TFPAGE) :
    Succeeds (execImage im t tf file argv) k fun r k' => Exec im t tf k k' r := by
  unfold execImage
  cases file with
  | none => exact Succeeds.pure (Moves.refl _ _ _)
  | some elf =>
    simp only
    split
    · exact Succeeds.pure (Moves.refl _ _ _)
    refine (succeeds_procPagetable hok).seq fun r k1 h => ?_
    cases r with
    | none => exact Succeeds.pure h
    | some pt =>
      obtain ⟨hs, hmv⟩ := h
      rw [← owned_zero] at hmv
      have hsp : Space im k1 pt tf 0 none :=
        ⟨hs, Nat.zero_le _, by
          have := card_of_moves hmv
          rw [card_zero] at this
          omega, hok.moves hmv⟩
      refine (succeeds_execLoad elf.phdrs hsp).seq fun ⟨ok, pt1, sz⟩ k2 ⟨hsp1, hmv1⟩ => ?_
      replace hmv1 := hmv.trans hmv1
      split
      · exact succeeds_execBad hsp1 hmv1
      · have hnp : npages (npages sz * PGSIZE) = npages sz :=
          npages_mul (le_maxpage (size_le_maxva hsp1.size))
        have hround : owned pt1 (npages sz * PGSIZE) = owned pt1 sz :=
          owned_congr rfl hnp fun _ _ => rfl
        rw [pgroundup_eq]
        refine succeeds_execFrom (hsp1.moved (t := t) ?_ ?_ ?_) ?_
        · rw [hnp]; exact hsp1.shape
        · have hmax : npages sz ≤ 67108864 := le_maxpage (size_le_maxva hsp1.size)
          show npages sz * 4096 ≤ 274877906944
          omega
        · rw [hround]; exact Moves.refl _ _ _
        · rwa [hround]

end Xv6.Mem
