/-
# `Xv6.Mem.Vm` — `kernel/vm.c`: user page tables

The functions that build, change, copy and free a user page table.  What user
pages contain plays no part, so `memset` and `memmove` on them are left out, and of
`copyout` what is left is whether it succeeds.

A pointer that `walk` returns into a table becomes a flag that says whether it is
null, and the table itself: `leaf` reads through the pointer, `put` writes.  A loop
over addresses counts the pages it has left.
-/
import Xv6.Mem.Kalloc
import Xv6.Mem.Pgtbl

namespace Xv6.Mem

open Machine

/-- The loop of `walk`.  `alloc` is the process to allocate tables for, if any. -/
def walkFrom (alloc : Option Nat) : {l : Nat} → Tbl l → Nat → Kern (Bool × Tbl l)
  | 0, pt, _ => return (true, pt)
  | l + 1, pt, va =>
    match pt.child (px (l + 1) va) with
    | some c => do
      let (ok, c) ← walkFrom alloc c va
      return (ok, .node pt.addr (Function.update pt.child (px (l + 1) va) (some c)))
    | none =>
      match alloc with
      | none => return (false, pt)
      | some t => do
        match ← kalloc t with
        | none => return (false, pt)
        | some pa =>
          let (ok, c) ← walkFrom alloc (Tbl.fresh l pa) va
          return (ok, .node pt.addr (Function.update pt.child (px (l + 1) va) (some c)))

def walk (alloc : Option Nat) (pt : Pgtbl) (va : Nat) : Kern (Bool × Pgtbl) :=
  if MAXVA ≤ va then throw "walk" else walkFrom alloc pt va

/-- The physical address of a user page, or 0. -/
def walkaddr (pt : Pgtbl) (va : Nat) : Nat :=
  if MAXVA ≤ va then 0
  else
    let pte := pt.leaf va
    if pt.present va = false then 0
    else if pte.v = false then 0
    else if pte.u = false then 0
    else pte.pa

/-- The permission bits of a `pte_t`. -/
structure Perm where
  r : Bool
  w : Bool
  x : Bool
  u : Bool

/-- `PTE_FLAGS(pte)` without `PTE_V`. -/
def Pte.perm (pte : Pte) : Perm := ⟨pte.r, pte.w, pte.x, pte.u⟩

/-- `PA2PTE(pa) | perm | PTE_V`. -/
def Perm.pte (perm : Perm) (pa : Nat) : Pte := ⟨pa, true, perm.r, perm.w, perm.x, perm.u⟩

def mappagesFrom (t : Nat) (perm : Perm) : Nat → Pgtbl → Nat → Nat → Kern (Bool × Pgtbl)
  | 0, pt, _, _ => return (true, pt)
  | n + 1, pt, a, pa => do
    let (ok, pt) ← walk (some t) pt a
    if ok = false then return (false, pt)
    else if (pt.leaf a).v then throw "mappages: remap"
    else mappagesFrom t perm n (pt.put a (perm.pte pa)) (a + PGSIZE) (pa + PGSIZE)

/-- `true` for a return value of 0. -/
def mappages (t : Nat) (pt : Pgtbl) (va size pa : Nat) (perm : Perm) : Kern (Bool × Pgtbl) :=
  if va % PGSIZE ≠ 0 then throw "mappages: va not aligned"
  else if size % PGSIZE ≠ 0 then throw "mappages: size not aligned"
  else if size = 0 then throw "mappages: size"
  else mappagesFrom t perm (size / PGSIZE) pt va pa

def uvmunmapFrom (e : Nat) (doFree : Bool) : Nat → Pgtbl → Nat → Kern Pgtbl
  | 0, pt, _ => return pt
  | n + 1, pt, a => do
    let (ok, pt) ← walk none pt a
    let pte := pt.leaf a
    if ok = false then throw "uvmunmap: walk"
    else if pte.v = false then throw "uvmunmap: not mapped"
    else if pte.r = false ∧ pte.w = false ∧ pte.x = false ∧ pte.u = false then
      throw "uvmunmap: not a leaf"
    else do
      if doFree then kfree e pte.pa
      uvmunmapFrom e doFree n (pt.put a Pte.zero) (a + PGSIZE)

def uvmunmap (e : Nat) (pt : Pgtbl) (va npages : Nat) (doFree : Bool) : Kern Pgtbl :=
  if va % PGSIZE ≠ 0 then throw "uvmunmap: not aligned"
  else uvmunmapFrom e doFree npages pt va

def uvmcreate (t : Nat) : Kern (Option Pgtbl) := do
  match ← kalloc t with
  | none => return none
  | some pa => return some (Tbl.fresh 2 pa)

/-- The new size, and the table. -/
def uvmdealloc (e : Nat) (pt : Pgtbl) (oldsz newsz : Nat) : Kern (Nat × Pgtbl) :=
  if oldsz ≤ newsz then return (oldsz, pt)
  else if PGROUNDUP newsz < PGROUNDUP oldsz then do
    let npages := (PGROUNDUP oldsz - PGROUNDUP newsz) / PGSIZE
    let pt ← uvmunmap e pt (PGROUNDUP newsz) npages true
    return (newsz, pt)
  else return (newsz, pt)

def uvmallocFrom (e t : Nat) (xperm : Perm) (oldsz newsz : Nat) :
    Nat → Pgtbl → Nat → Kern (Nat × Pgtbl)
  | 0, pt, _ => return (newsz, pt)
  | n + 1, pt, a => do
    match ← kalloc t with
    | none =>
      let (_, pt) ← uvmdealloc e pt a oldsz
      return (0, pt)
    | some mem =>
      let (ok, pt) ← mappages t pt a PGSIZE mem ⟨true, xperm.w, xperm.x, true⟩
      if ok = false then do
        kfree e mem
        let (_, pt) ← uvmdealloc e pt a oldsz
        return (0, pt)
      else uvmallocFrom e t xperm oldsz newsz n pt (a + PGSIZE)

/-- The new size or 0, and the table. -/
def uvmalloc (e t : Nat) (pt : Pgtbl) (oldsz newsz : Nat) (xperm : Perm) : Kern (Nat × Pgtbl) :=
  if newsz < oldsz then return (oldsz, pt)
  else
    let oldsz := PGROUNDUP oldsz
    uvmallocFrom e t xperm oldsz newsz ((newsz - oldsz + PGSIZE - 1) / PGSIZE) pt oldsz

def freewalk (e : Nat) : {l : Nat} → Tbl l → Kern Unit
  | 0, pt => do
    (List.finRange 512).forM fun i =>
      let pte := pt.entry i
      if pte.v ∧ pte.r = false ∧ pte.w = false ∧ pte.x = false then
        throw "freewalk: a table below level 0"
      else if pte.v then throw "freewalk: leaf"
      else pure ()
    kfree e pt.addr
  | _ + 1, pt => do
    (List.finRange 512).forM fun i =>
      match pt.child i with
      | some c => freewalk e c
      | none => pure ()
    kfree e pt.addr

def uvmfree (e : Nat) (pt : Pgtbl) (sz : Nat) : Kern Unit := do
  let pt ← if 0 < sz then uvmunmap e pt 0 (PGROUNDUP sz / PGSIZE) true else pure pt
  freewalk e pt

def uvmcopyFrom (e t : Nat) (old : Pgtbl) : Nat → Pgtbl → Nat → Kern (Bool × Pgtbl)
  | 0, new, _ => return (true, new)
  | n + 1, new, i => do
    let (ok, old) ← walk none old i
    let pte := old.leaf i
    if ok = false then throw "uvmcopy: pte should exist"
    else if pte.v = false then throw "uvmcopy: page not present"
    else
      match ← kalloc t with
      | none =>
        let new ← uvmunmap e new 0 (i / PGSIZE) true
        return (false, new)
      | some mem =>
        let (ok, new) ← mappages t new i PGSIZE mem pte.perm
        if ok = false then do
          kfree e mem
          let new ← uvmunmap e new 0 (i / PGSIZE) true
          return (false, new)
        else uvmcopyFrom e t old n new (i + PGSIZE)

/-- `true` for a return value of 0. -/
def uvmcopy (e t : Nat) (old new : Pgtbl) (sz : Nat) : Kern (Bool × Pgtbl) :=
  uvmcopyFrom e t old ((sz + PGSIZE - 1) / PGSIZE) new 0

def uvmclear (pt : Pgtbl) (va : Nat) : Kern Pgtbl := do
  let (ok, pt) ← walk none pt va
  if ok = false then throw "uvmclear"
  else return pt.put va { pt.leaf va with u := false }

/-- The loop of `copyout`; every round copies a byte at least. -/
def copyoutFrom (pt : Pgtbl) : Nat → Nat → Nat → Bool
  | 0, _, len => len == 0
  | fuel + 1, dstva, len =>
    if len = 0 then true
    else
      let va0 := PGROUNDDOWN dstva
      let pte := pt.leaf va0
      if MAXVA ≤ va0 then false
      else if pt.present va0 = false ∨ pte.v = false ∨ pte.u = false ∨ pte.w = false then false
      else
        let n := PGSIZE - (dstva - va0)
        let n := if len < n then len else n
        copyoutFrom pt fuel (va0 + PGSIZE) (len - n)

/-- Whether `copyout` returns 0. -/
def copyout (pt : Pgtbl) (dstva len : Nat) : Bool := copyoutFrom pt len dstva len

end Xv6.Mem
