/-
# `Xv6.Log.Inv` — what holds of cache, log and disk between any two operations

`Base` is about the buffer cache: one buffer a block, reference counts, who may
change a buffer, and that a buffer which is neither being changed nor pinned by
the log equals its block on disk.  It asks of a system call only that it change
buffers inside an operation and log them before it lets go of them.

`Durable` ties the disk to the updates logged so far.  It needs in addition that
system calls keep out of the log area.  `OnDisk` is the part that survives a
crash: the header names blocks whose contents are in the log, and every other
home block is in place.

`Rely p` is what the other processes leave alone, as process `p` sees it, and
`Pre p o` what `p` owes before operation `o`.
-/
import Xv6.Log.Turns

namespace Xv6.Log

open Machine Function

variable {N : Nat} {M : Type}

/-! ## Logged contents -/

/-- The disk `d` with the updates `us` made one after the other. -/
def content (d : BlockNo → Block) (us : List Update) : BlockNo → Block :=
  us.foldl (fun d u => update d u.blockno u.data) d

theorem content_snoc (d : BlockNo → Block) (us : List Update) (u : Update) :
    content d (us ++ [u]) = update (content d us) u.blockno u.data := by
  simp [content]

theorem content_append_of_not_mem (d : BlockNo → Block) (us vs : List Update) {b : BlockNo}
    (h : ∀ v ∈ vs, v.blockno ≠ b) : content d (us ++ vs) b = content d us b := by
  induction vs using List.reverseRecOn with
  | nil => simp
  | append_singleton vs v ih =>
    rw [← List.append_assoc, content_snoc, update_of_ne (h v (by simp)).symm]
    exact ih fun w hw => h w (List.mem_append_left _ hw)

/-- What a block holds once everything logged so far is committed. -/
def Sys.cur (s : Sys N M) (d₀ : BlockNo → Block) : BlockNo → Block :=
  content d₀ (s.committed ++ s.pending)

/-- What it holds after a crash now. -/
def Sys.durable (s : Sys N M) (d₀ : BlockNo → Block) : BlockNo → Block := content d₀ s.committed

/-! ## The log area -/

/-- The disk `d` stands for the contents `c` of the home blocks. -/
structure OnDisk (L : Layout) (d : BlockNo → Block) (c : BlockNo → Block) : Prop where
  short : hdrN (d (L.at 0)) ≤ LOGSIZE
  room : (hdrBlocks (d (L.at 0))).length < L.size
  nodup : (hdrBlocks (d (L.at 0))).Nodup
  home : ∀ b ∈ hdrBlocks (d (L.at 0)), L.Home b
  logged : ∀ i (h : i < (hdrBlocks (d (L.at 0))).length),
    d (L.at (i + 1)) = c (hdrBlocks (d (L.at 0)))[i]
  placed : ∀ b, L.Home b → b ∉ hdrBlocks (d (L.at 0)) → d b = c b

/-! ## The invariant -/

structure Base (s : Sys N M) : Prop extends Turns s where
  order : s.order.Nodup ∧ ∀ i, i ∈ s.order
  uniq : ∀ i j, (s.buf i).dev = ROOTDEV → (s.buf j).dev = ROOTDEV →
    (s.buf i).blockno = (s.buf j).blockno → i = j
  refcnt : ∀ i, (s.buf i).refcnt = (∑ p, (s.refs p).count i) + s.pins.count i
  dev : ∀ i, (s.buf i).refcnt ≠ 0 ∨ (s.buf i).valid = true → (s.buf i).dev = ROOTDEV
  lock : ∀ i p, (s.buf i).lock = some p → i ∈ s.refs p
  pinsNodup : s.pins.Nodup
  pinsValid : ∀ i ∈ s.pins, (s.buf i).valid = true
  pinsLh : ∀ i ∈ s.pins, (s.buf i).blockno ∈ s.lh
  pinned : s.owner = none → s.pins.map (fun i => (s.buf i).blockno) = s.lh
  coherent : ∀ i, (s.buf i).valid = true → (s.buf i).dirty = false →
    (s.buf i).data = s.disk (s.buf i).blockno ∨ i ∈ s.pins
  dirty : ∀ i, (s.buf i).dirty = true → (s.buf i).valid = true ∧
    ∃ p, (s.buf i).lock = some p ∧ ((s.op p).isSome = true ∨ s.owner = some p)
  switchedOn : s.booted = false → s.owner = none → (∀ p, s.refs p = []) ∧ s.pins = []
  serial : ∀ p k, s.op p = some k → k < s.nextop ∧ (∀ u ∈ s.committed, u.op ≠ k) ∧
    ∀ u ∈ s.lost, u.op ≠ k
  serials : ∀ u ∈ s.pending, u.op < s.nextop ∧ (∀ v ∈ s.committed, u.op ≠ v.op) ∧
    ∀ v ∈ s.lost, u.op ≠ v.op
  closed : ∀ u ∈ s.committed, u.op < s.nextop ∧ ∀ v ∈ s.lost, u.op ≠ v.op
  gone : ∀ u ∈ s.lost, u.op < s.nextop

structure Durable (L : Layout) (d₀ : BlockNo → Block) (s : Sys N M) : Prop where
  homeLh : ∀ b ∈ s.lh, L.Home b
  pendLh : ∀ u ∈ s.pending, u.blockno ∈ s.lh
  lhRoom : s.lh.length ≤ LOGSIZE ∧ s.lh.length < L.size
  cached : s.booted = true → ∀ i, (s.buf i).valid = true → (s.buf i).dirty = false →
    L.Home (s.buf i).blockno → (s.buf i).data = s.cur d₀ (s.buf i).blockno
  inPlace : s.booted = true → ∀ b, L.Home b →
    (∃ i ∈ s.pins, (s.buf i).blockno = b) ∨ s.disk b = s.cur d₀ b
  onDisk : OnDisk L s.disk (s.durable d₀)
  clean : s.booted = true → s.owner = none → hdrN (s.disk (L.at 0)) = 0
  nothing : s.booted = false → s.pending = []

/-- The invariant; `strict` says whether system calls keep out of the log area. -/
structure Inv (L : Layout) (d₀ : BlockNo → Block) (strict : Prop) (s : Sys N M) : Prop where
  base : Base s
  durable : strict → Durable L d₀ s

/-! ## Rely -/

/-- What is `p`'s, apart from its buffers: its operation, and the disk and the log while it
owns them. -/
structure Still (p : Fin N) (s t : Sys N M) : Prop where
  op : t.op p = s.op p
  booted : s.booted = true → t.booted = true
  owner : t.owner = some p ↔ s.owner = some p
  owned : s.owner = some p → t.disk = s.disk ∧ t.lh = s.lh ∧ t.pins = s.pins ∧
    t.pending = s.pending ∧ t.committed = s.committed ∧ t.booted = s.booted
  pinKey : s.owner = some p → ∀ i ∈ s.pins, (t.buf i).blockno = (s.buf i).blockno

structure Rely (p : Fin N) (s t : Sys N M) : Prop extends Still p s t where
  refs : t.refs p = s.refs p
  key : ∀ i ∈ s.refs p, (t.buf i).blockno = (s.buf i).blockno
  lock : ∀ i, (t.buf i).lock = some p ↔ (s.buf i).lock = some p
  held : ∀ i, (s.buf i).lock = some p → (t.buf i).valid = (s.buf i).valid ∧
    (t.buf i).data = (s.buf i).data ∧ (t.buf i).dirty = (s.buf i).dirty

section
variable {p : Fin N} {s t u : Sys N M}

theorem Still.refl : Still p s s :=
  ⟨rfl, id, Iff.rfl, fun _ => ⟨rfl, rfl, rfl, rfl, rfl, rfl⟩, fun _ _ _ => rfl⟩

theorem Still.trans (h1 : Still p s t) (h2 : Still p t u) : Still p s u where
  op := h2.op.trans h1.op
  booted h := h2.booted (h1.booted h)
  owner := h2.owner.trans h1.owner
  owned ho := by
    obtain ⟨a1, b1, c1, d1, e1, f1⟩ := h1.owned ho
    obtain ⟨a2, b2, c2, d2, e2, f2⟩ := h2.owned (h1.owner.mpr ho)
    exact ⟨a2.trans a1, b2.trans b1, c2.trans c1, d2.trans d1, e2.trans e1, f2.trans f1⟩
  pinKey ho i hi := by
    obtain ⟨-, -, hp, -⟩ := h1.owned ho
    exact (h2.pinKey (h1.owner.mpr ho) i (hp ▸ hi)).trans (h1.pinKey ho i hi)

theorem Rely.refl (p : Fin N) (s : Sys N M) : Rely p s s :=
  ⟨.refl, rfl, fun _ _ => rfl, fun _ => Iff.rfl, fun _ _ => ⟨rfl, rfl, rfl⟩⟩

theorem Rely.trans (h1 : Rely p s t) (h2 : Rely p t u) : Rely p s u where
  toStill := h1.toStill.trans h2.toStill
  refs := h2.refs.trans h1.refs
  key i hi := (h2.key i (h1.refs ▸ hi)).trans (h1.key i hi)
  lock i := (h2.lock i).trans (h1.lock i)
  held i hi := by
    obtain ⟨a1, b1, c1⟩ := h1.held i hi
    obtain ⟨a2, b2, c2⟩ := h2.held i ((h1.lock i).mpr hi)
    exact ⟨a2.trans a1, b2.trans b1, c2.trans c1⟩

end

/-! ## What an operation asks of its caller -/

/-- `p` holds no buffer it has changed and not logged or written. -/
def Clean (p : Fin N) (s : Sys N M) : Prop := ∀ i, (s.buf i).lock = some p → (s.buf i).dirty = false

def Pre {X : Ext N} (L : Layout) (d₀ : BlockNo → Block) (strict : Prop) (p : Fin N)
    (o : Op X.Op) (s : Sys N X.Mem) : Prop :=
  match o with
  | .bget _ => s.booted = true ∨ s.owner = some p
  | .acquiresleep i => i ∈ s.refs p
  | .diskRead i => (s.buf i).lock = some p ∧ (s.buf i).valid = false
  | .setData i _ =>
    (s.buf i).lock = some p ∧ (s.buf i).valid = true ∧ ((s.op p).isSome = true ∨ s.owner = some p)
  | .diskWrite i =>
    (s.buf i).lock = some p ∧ (s.buf i).valid = true ∧ s.owner = some p ∧
      (strict → OnDisk L (diskWrite L i s).disk ((diskWrite L i s).durable d₀) ∧
        (s.booted = true → L.Home (s.buf i).blockno → (s.buf i).data = s.cur d₀ (s.buf i).blockno) ∧
        (s.booted = false → s.pending = []))
  | .releasesleep i => (s.buf i).lock = some p ∧ (s.buf i).dirty = false
  | .deref i => i ∈ s.refs p ∧ (s.buf i).lock ≠ some p
  | .bunpin i =>
    s.owner = some p ∧ i ∈ s.pins ∧ (s.buf i).lock = some p ∧ (s.buf i).dirty = false ∧
      (s.buf i).data = s.disk (s.buf i).blockno ∧
      (strict → s.disk (s.buf i).blockno = s.cur d₀ (s.buf i).blockno)
  | .beginOp => s.booted = true ∧ s.op p = none ∧ s.owner ≠ some p
  | .logWrite i =>
    (s.op p).isSome = true ∧ (s.buf i).lock = some p ∧ (s.buf i).valid = true ∧
      (strict → L.Home (s.buf i).blockno)
  | .endOp => (s.op p).isSome = true ∧ Clean p s
  | .endCommit =>
    s.owner = some p ∧ s.booted = true ∧ s.lh = [] ∧ s.pins = [] ∧ Clean p s ∧
      (strict → s.pending = [] ∧ hdrN (s.disk (L.at 0)) = 0)
  | .setLh lh =>
    s.owner = some p ∧ s.pins = [] ∧ (s.booted = true → lh = []) ∧
      (strict → s.pending = [] ∧ (∀ b ∈ lh, L.Home b) ∧ lh.length ≤ LOGSIZE ∧ lh.length < L.size)
  | .boot =>
    s.owner = some p ∧ s.booted = false ∧ s.lh = [] ∧ s.pins = [] ∧ Clean p s ∧
      (strict → s.pending = [] ∧ hdrN (s.disk (L.at 0)) = 0)
  | _ => True

end Xv6.Log
