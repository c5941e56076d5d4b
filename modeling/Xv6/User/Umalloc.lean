/-
# `Xv6.User.Umalloc` — `user/umalloc.c` and a program that uses it

A header is two fields at an address, `ptr` and `size`; a block is a header and what
follows it, `size` units of `sizeof(Header)` = 16 bytes together.  `free` and `morecore`
are functions of the memory, `malloc` also of what `sbrk` answers.

The machine runs a program that allocates, frees what it has allocated, and stores
into its blocks as it likes.  Its state remembers the blocks the program has and the
regions that came from `sbrk`.  The loops get as many turns as there can be blocks;
a loop that needs more would have no next state.
-/
import Mathlib.Algebra.Order.Ring.Nat
import Xv6.Lib.Cycle
import Xv6.Lib.Run

namespace Xv6.Umalloc

open Machine Function

structure Heap where
  /-- `h->s.ptr`. -/
  ptr : Nat → Nat
  /-- `h->s.size`, a `uint`. -/
  size : Nat → Nat
  freep : Nat

/-! ## The code -/

/-- Where the loop of `free` stops. -/
def Heap.place (h : Heap) (bp p : Nat) : Bool :=
  (bp > p && bp < h.ptr p) || (p ≥ h.ptr p && (bp > p || bp < h.ptr p))

/-- `bp` is joined to the upper neighbour, or points to it. -/
def Heap.joinUpper (h : Heap) (bp p : Nat) : Heap :=
  if bp + 16 * h.size bp = h.ptr p then
    { h with
      size := update h.size bp ((h.size bp + h.size (h.ptr p)) % 2 ^ 32)
      ptr := update h.ptr bp (h.ptr (h.ptr p)) }
  else { h with ptr := update h.ptr bp (h.ptr p) }

/-- `bp` is joined to the lower neighbour, or the lower neighbour points to it. -/
def Heap.joinLower (h : Heap) (bp p : Nat) : Heap :=
  if p + 16 * h.size p = bp then
    { h with
      size := update h.size p ((h.size p + h.size bp) % 2 ^ 32)
      ptr := update h.ptr p (h.ptr bp) }
  else { h with ptr := update h.ptr p bp }

def free (turns : Nat) (ap : Nat) (h : Heap) : Option Heap := do
  let bp := ap - 16
  let p ← walk h.ptr (h.place bp) turns h.freep
  some { (h.joinUpper bp p).joinLower bp p with freep := p }

/-- What `morecore` asks `sbrk` for. -/
def moreUnits (nu : Nat) : Nat := if nu < 4096 then 4096 else nu

/-- `morecore(nu)` when `sbrk` has answered `a`. -/
def morecore (turns nu a : Nat) (h : Heap) : Option Heap :=
  free turns (a + 16) { h with size := update h.size a (moreUnits nu) }

/-- The block at `p`, behind `prevp`, is large enough: it is taken, or cut at its end. -/
def Heap.take (h : Heap) (nunits prevp p : Nat) : Heap × Nat :=
  if h.size p = nunits then
    ({ h with ptr := update h.ptr prevp (h.ptr p), freep := prevp }, p + 16)
  else
    let rest := h.size p - nunits
    let q := p + 16 * rest
    ({ h with size := update (update h.size p rest) q nunits, freep := prevp },
      q + 16)

structure Region where
  addr : Nat
  units : Nat
deriving DecidableEq

/-- The loop of `malloc` with `prevp` before its first `p`: it runs to a block that is
large enough or back to `freep`; there it calls `morecore` and goes on, with the
answers of `sbrk` in turn.  It returns the pointer and what it has got from `sbrk`. -/
def mallocLoop (turns nunits : Nat) (answers : List (Option Nat)) (prevp : Nat) (h : Heap)
    (got : List Region) : Option (Heap × Nat × List Region) := do
  let (prevp, p) ← walk (fun s => (s.2, h.ptr s.2))
    (fun s => h.size s.2 ≥ nunits || s.2 = h.freep) turns (prevp, h.ptr prevp)
  if h.size p ≥ nunits then
    let (h, ap) := h.take nunits prevp p
    some (h, ap, got)
  else
    match answers with
    | [] => none
    | none :: _ => some (h, 0, got)
    | some a :: answers =>
      let h ← morecore turns nunits a h
      mallocLoop turns nunits answers h.freep h (got ++ [⟨a, moreUnits nunits⟩])
termination_by structural answers

def unitsFor (nbytes : Nat) : Nat := ((nbytes + 16 - 1) / 16 + 1) % 2 ^ 32

/-- `malloc(nbytes)`, with `base` the address of the static header. -/
def malloc (base turns nbytes : Nat) (answers : List (Option Nat)) (h : Heap) :
    Option (Heap × Nat × List Region) :=
  let h := if h.freep = 0 then
      { ptr := update h.ptr base base, size := update h.size base 0, freep := base }
    else h
  mallocLoop turns (unitsFor nbytes) answers h.freep h []

/-! ## A program that uses it -/

/-- A block the program has, with what it asked for. -/
structure Block where
  addr : Nat
  units : Nat
  nbytes : Nat
deriving DecidableEq

structure Sys where
  heap : Heap
  live : List Block
  regions : List Region

inductive Act
  /-- A call, with what `sbrk` answers if it is called. -/
  | malloc (nbytes : Nat) (answer : Option Nat)
  | free (ap : Nat)
  /-- The program stores where a header at `a` would be. -/
  | store (a ptr size : Nat)

def total (l : List Region) : Nat := (l.map Region.units).sum

/-- As many turns as there can be blocks, with `base`. -/
def turns (s : Sys) (nu : Nat) : Nat := total s.regions + moreUnits nu + 2

/-- A region of memory above `base` and above all earlier ones. -/
def Fresh (base : Nat) (s : Sys) (nu a : Nat) : Prop :=
  base + 16 ≤ a ∧ (∀ r ∈ s.regions, r.addr + 16 * r.units ≤ a) ∧ a + 16 * nu < 2 ^ 64

instance (base : Nat) (s : Sys) (nu a : Nat) : Decidable (Fresh base s nu a) :=
  inferInstanceAs (Decidable (_ ∧ _ ∧ _))

/-- What a header at `a` would fill overlaps what the program may use of a block. -/
def Block.inside (b : Block) (a : Nat) : Prop :=
  a < b.addr + 16 * b.units ∧ b.addr + 16 < a + 16

instance (b : Block) (a : Nat) : Decidable (b.inside a) := inferInstanceAs (Decidable (_ ∧ _))

def step (base : Nat) (s : Sys) : Act → Option Sys
  | .malloc nbytes answer =>
    if nbytes < 2 ^ 32 ∧ 16 * unitsFor nbytes < 2 ^ 31 ∧
        ∀ a ∈ answer, Fresh base s (moreUnits (unitsFor nbytes)) a then do
      let (heap, ap, got) ← malloc base (turns s (unitsFor nbytes)) nbytes [answer] s.heap
      let live := if ap = 0 then s.live else s.live ++ [⟨ap - 16, unitsFor nbytes, nbytes⟩]
      some { heap := heap, live := live, regions := s.regions ++ got }
    else none
  | .free ap =>
    if ap ∈ s.live.map (·.addr + 16) then do
      let heap ← free (turns s 0) ap s.heap
      some { s with heap := heap, live := s.live.filter (·.addr + 16 ≠ ap) }
    else none
  | .store a ptr size =>
    if ∃ b ∈ s.live, b.inside a then
      some { s with heap := { s.heap with ptr := update s.heap.ptr a ptr,
                                          size := update s.heap.size a size } }
    else none

/-- Before the first call: `freep` is a null pointer. -/
def Init (s : Sys) : Prop := s.heap.freep = 0 ∧ s.live = [] ∧ s.regions = []

end Xv6.Umalloc
