/-
# `Xv6.Mem.Kalloc` — `kernel/kalloc.c`

The list that starts at `kmem.freelist`, and `kfree` and `kalloc` on it.  Two more
fields drive and watch the allocator: `fails` says for the next calls of `kalloc`
whether they fail although a page is free, and `tag` is history, the process on
whose behalf a page was last allocated (every call of `kalloc` names one).

`e` is the address `end` that the linker script defines.
-/
import Xv6.Lib.Ledger
import Xv6.Lib.Succeeds
import Xv6.Params

namespace Xv6.Mem

open Machine

/-- A physical address. -/
abbrev Pa := Nat

structure Kmem where
  freelist : List Pa
  fails : List Bool
  tag : Pa → Nat

/-- Kernel code that allocates and frees pages, and may panic. -/
abbrev Kern := StateT Kmem (Except String)

def kfree (e pa : Nat) : Kern Unit := fun k =>
  if pa % PGSIZE ≠ 0 ∨ pa < e ∨ PHYSTOP ≤ pa then .error "kfree"
  else .ok ((), { k with freelist := pa :: k.freelist })

def kalloc (t : Nat) : Kern (Option Pa) := fun k =>
  match k.fails, k.freelist with
  | true :: fs, _ => .ok (none, { k with fails := fs })
  | _, [] => .ok (none, { k with fails := k.fails.tail })
  | _, pa :: rest => .ok (some pa, ⟨rest, k.fails.tail, Function.update k.tag pa t⟩)

/-- The loop of `freerange`, `n` pages from `p` on. -/
def freerangeFrom (e : Nat) : Nat → Nat → Kern Unit
  | 0, _ => return ()
  | n + 1, p => do
    kfree e p
    freerangeFrom e n (p + PGSIZE)

def freerange (e paStart paEnd : Nat) : Kern Unit :=
  freerangeFrom e ((paEnd - PGROUNDUP paStart) / PGSIZE) (PGROUNDUP paStart)

def kinit (e : Nat) : Kern Unit := freerange e e PHYSTOP

/-! ## Specifications -/

def Kmem.ledger (k : Kmem) : Ledger Pa Nat := ⟨k.freelist, k.tag⟩

/-- What `kfree` accepts. -/
def PageOk (e pa : Nat) : Prop := pa % PGSIZE = 0 ∧ e ≤ pa ∧ pa < PHYSTOP

variable {e : Nat} {k : Kmem} {t : Nat}

theorem succeeds_kfree {pa : Nat} (h : PageOk e pa) :
    Succeeds (kfree e pa) k fun _ k' => ∀ t X, Moves t k.ledger (pa ::ₘ X) k'.ledger X := by
  have hok : ¬ (pa % PGSIZE ≠ 0 ∨ pa < e ∨ PHYSTOP ≤ pa) := by
    obtain ⟨h₁, h₂, h₃⟩ := h
    omega
  refine ⟨(), { k with freelist := pa :: k.freelist }, ?_,
    fun t X => Moves.give t k.ledger pa X⟩
  unfold kfree
  rw [if_neg hok]

/-- A page, or none and nothing happened. -/
def Taken (t : Nat) (k k' : Kmem) : Option Pa → Prop
  | none => k'.ledger = k.ledger
  | some pa => pa ∈ k.freelist ∧ k.freelist.length = k'.freelist.length + 1 ∧
      ∀ X, Moves t k.ledger X k'.ledger (pa ::ₘ X)

theorem succeeds_kalloc : Succeeds (kalloc t) k fun r k' => Taken t k k' r := by
  unfold kalloc Succeeds
  simp only
  split
  · exact ⟨_, _, rfl, rfl⟩
  · exact ⟨_, _, rfl, rfl⟩
  · rename_i pa rest hfl _
    refine ⟨_, _, rfl, by simp [hfl], by simp [hfl], fun X => ?_⟩
    refine Moves.take t X ?_
    show (k.freelist : Multiset Pa) = _
    rw [hfl]; rfl

/-- The pages that `kinit` hands to the allocator. -/
def pages (e : Nat) : List Nat :=
  (List.range ((PHYSTOP - PGROUNDUP e) / PGSIZE)).map fun i => PGROUNDUP e + i * PGSIZE

/-! ## `kinit` -/

theorem freerangeFrom_eq {n p : Nat} (h : ∀ pa ∈ List.range' p n PGSIZE, PageOk e pa) :
    freerangeFrom e n p k =
      .ok ((), { k with freelist := (List.range' p n PGSIZE).reverse ++ k.freelist }) := by
  induction n generalizing p k with
  | zero => rfl
  | succ n ih =>
    rw [List.range'_succ] at h ⊢
    obtain ⟨⟨h1, h2, h3⟩, hrest⟩ := List.forall_mem_cons.mp h
    have hfree : kfree e p k = .ok ((), { k with freelist := p :: k.freelist }) := by
      unfold kfree
      rw [if_neg (by omega)]
    show (kfree e p k >>= fun r => freerangeFrom e n (p + PGSIZE) r.2) = _
    rw [hfree, List.reverse_cons, List.append_assoc]
    exact ih hrest

/-- `kinit` does not panic, and adds every page from `end` to `PHYSTOP` to the free list,
once. -/
theorem kinit_frees_pages (he : e ≤ PHYSTOP) (k : Kmem) :
    kinit e k = .ok ((), { k with freelist := (pages e).reverse ++ k.freelist }) ∧
    (pages e).Nodup ∧ ∀ pa, pa ∈ pages e ↔ PageOk e pa := by
  have hup : PGROUNDUP e = (e + 4095) / 4096 * 4096 := by
    simp only [PGROUNDUP, PGSIZE, PHYSTOP, KERNBASE] at he ⊢
    omega
  have hpages : pages e = List.range' (PGROUNDUP e) ((PHYSTOP - PGROUNDUP e) / PGSIZE) PGSIZE :=
    List.ext_getElem (by simp [pages]) (by simp [pages, Nat.mul_comm])
  have hmem : ∀ pa, pa ∈ pages e ↔ PageOk e pa := fun pa => by
    simp only [hpages, PageOk, hup, List.mem_range', PGSIZE, PHYSTOP, KERNBASE] at he ⊢
    constructor
    · rintro ⟨i, hi, rfl⟩
      omega
    · rintro ⟨h1, h2, h3⟩
      exact ⟨(pa - (e + 4095) / 4096 * 4096) / 4096, by omega, by omega⟩
  rw [hpages] at hmem ⊢
  exact ⟨freerangeFrom_eq fun pa => (hmem pa).mp, List.nodup_range' _ (by decide), hmem⟩

theorem kinit_frees_pages_three : ∃ k, kinit (PHYSTOP - 13000) ⟨[], [], fun _ => 0⟩ = .ok ((), k) ∧
    k.freelist = [PHYSTOP - PGSIZE, PHYSTOP - 2 * PGSIZE, PHYSTOP - 3 * PGSIZE] :=
  ⟨_, (kinit_frees_pages (by decide) _).1, by decide⟩

end Xv6.Mem
