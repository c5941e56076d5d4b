/-
# `Xv6.Virtio.Inv` — who has a descriptor, and where a request is

Four groups of facts, each kept by every step:

  * `Locks`: `vdisk_lock` is held by whoever is at a point inside it;
  * `Owns`: every descriptor that is not free belongs to one process, which has
    three of them; no two calls are for one buffer;
  * `Links`: a process past the formatting finds its chain in the descriptor
    table, its request in `ops` and its buffer in `info`;
  * `Flight`: the heads in the avail ring, in the hands of the device and in the
    used ring are all different, and each is the head of a process that waits
    for it with `b->disk` set.

A ring has `NUM` entries and there are no more heads than descriptors, so neither
ring overflows; that is all that the 16-bit indices need.
-/
import Xv6.Virtio.Steps

namespace Xv6.Virtio

open Machine Function List Option

variable {N M : Nat} {B D : Type} {s t u : Sys N M B D} {pc y : PC B} {r : Rw B} {x : Idx}
  {γ : Type} {p q : Fin N} {c : Fin M} {f : Fin NUM → Bool} {i : Fin NUM} {k n : Nat} {v : Bool}

/-! ## Views of a state -/

/-- All requests between the driver and the device. -/
def Sys.live (s : Sys N M B D) : List Nat := s.pend ++ s.dev.work.map Prod.fst ++ s.posted

/-- The request of a process that is about to give it to the device. -/
def PC.offers : PC B → Option (Rw B × Idx)
  | .ring r x | .bump r x => some (r, x)
  | _ => none

theorem PC.Woke.offers {pc' : PC B} (h : pc.Woke pc') : pc'.offers = pc.offers := by
  cases h <;> rfl

theorem PC.Woke.of_bump (h : pc.Woke (.bump r x)) : pc = .bump r x := by
  cases h; rfl

theorem PC.linked_of_offers (h : pc.offers = some (r, x)) :
    pc.linked = some (r, x) ∧ pc.waiting = none := by
  cases pc <;> simp_all [PC.offers, PC.linked, PC.waiting]

/-- A view of the processes that a step of `p` leaves as it was. -/
theorem goto_view (f : PC B → γ)
    (hu : ∀ q, f (u.pc q) = f (s.pc q)) (hp : f y = f (s.pc p)) (q : Fin N) :
    f ((u.goto p y).pc q) = f (s.pc q) := by
  by_cases hq : q = p
  · subst hq; simpa [Sys.goto] using hp
  · simpa [Sys.goto, hq] using hu q

/-- What a view of the processes shows after a step of `p`. -/
theorem goto_cases {f : PC B → Option γ} {z : γ} (h : f ((u.goto p y).pc q) = some z) :
    (q = p ∧ f y = some z) ∨ (q ≠ p ∧ f (u.pc q) = some z) := by
  by_cases hq : q = p
  · subst hq; exact .inl ⟨rfl, by simpa [Sys.goto] using h⟩
  · exact .inr ⟨hq, by simpa [Sys.goto, hq] using h⟩

@[simp] theorem goto_pc_self (s : Sys N M B D) (p : Fin N) (pc : PC B) : (s.goto p pc).pc p = pc := by
  simp [Sys.goto]

theorem goto_pc_ne (s : Sys N M B D) (pc : PC B) (h : q ≠ p) : (s.goto p pc).pc q = s.pc q := by
  simp [Sys.goto, h]

/-! ## `vdisk_lock` -/

/-- A process or a handler is at a point where it holds `vdisk_lock`. -/
def Sys.holds (s : Sys N M B D) : Fin N ⊕ Fin M → Bool
  | .inl p => (s.pc p).holds
  | .inr c => (s.intr c).holds

def Locks (s : Sys N M B D) : Prop := ∀ o, s.lock = some o ↔ s.holds o = true

section
variable {o : Fin N ⊕ Fin M} {v : Bool} (h : Locks s) (ht : t.holds = update s.holds o v)
include h ht

theorem Locks.keep (hl : t.lock = s.lock) (hv : v = s.holds o) : Locks t := fun o' => by
  rw [ht, update_eq_self_iff.mpr hv, hl]; exact h o'

theorem Locks.acquire (hs : s.lock = none) (hl : t.lock = some o) (hv : v = true) : Locks t := by
  intro o'
  rw [ht, hl]
  by_cases hoo : o' = o
  · subst hoo; simp [hv]
  · have : ¬ s.holds o' = true := fun hh => by rw [← h, hs] at hh; cases hh
    rw [update_of_ne hoo]
    exact ⟨fun e => absurd (Option.some.inj e).symm hoo, fun hh => absurd hh this⟩

theorem Locks.release (hs : s.holds o = true) (hl : t.lock = none) (hv : v = false) : Locks t := by
  intro o'
  rw [ht, hl]
  by_cases hoo : o' = o
  · subst hoo; simp [hv]
  · have : ¬ s.holds o' = true := fun hh => by
      rw [← h, (h o).mpr hs] at hh; exact hoo (Option.some.inj hh).symm
    rw [update_of_ne hoo]
    exact ⟨nofun, fun hh => absurd hh this⟩

end

theorem holds_goto (hu : ∀ q, (s.pc q).Woke (u.pc q)) (hi : u.intr = s.intr) :
    (u.goto p pc).holds = update s.holds (.inl p) pc.holds := by
  funext o
  cases o with
  | inl q =>
    by_cases hq : q = p
    · subst hq; simp [Sys.holds]
    · simp [Sys.holds, goto_pc_ne _ _ hq, (hu q).holds, hq]
  | inr c => simp [Sys.holds, Sys.goto, hi]

theorem holds_gotoIntr {pc : Intr} (hu : ∀ q, (s.pc q).Woke (u.pc q))
    (hi : u.intr = s.intr) : (u.gotoIntr c pc).holds = update s.holds (.inr c) pc.holds := by
  funext o
  cases o with
  | inl q => simp [Sys.holds, Sys.gotoIntr, (hu q).holds]
  | inr d => by_cases hd : d = c <;> simp [Sys.holds, Sys.gotoIntr, hd, hi]

/-! ## Descriptors -/

structure Owns (s : Sys N M B D) : Prop where
  bufs : ∀ p q r r', (s.pc p).rw = some r → (s.pc q).rw = some r' → r.b = r'.b → p = q
  nodup : ∀ p x, (s.pc p).idx = some x → x.toList.Nodup
  taken : ∀ p x i, (s.pc p).idx = some x → i ∈ x.toList → s.disk.free i = false
  disjoint : ∀ p q x y i, (s.pc p).idx = some x → (s.pc q).idx = some y → i ∈ x.toList →
    i ∈ y.toList → p = q
  owned : ∀ i, s.disk.free i = false → ∃ p x, (s.pc p).idx = some x ∧ i ∈ x.toList

/-- `Owns` sees of a process its request and its descriptors only. -/
theorem Owns.congr (h : Owns s) (hf : t.disk.free = s.disk.free)
    (hr : ∀ q, (t.pc q).rw = (s.pc q).rw) (hi : ∀ q, (t.pc q).idx = (s.pc q).idx) : Owns t where
  bufs p q r r' := by rw [hr, hr]; exact h.bufs p q r r'
  nodup p x := by rw [hi]; exact h.nodup p x
  taken p x i := by rw [hi, hf]; exact h.taken p x i
  disjoint p q x y i := by rw [hi, hi]; exact h.disjoint p q x y i
  owned i := by simp only [hi, hf]; exact h.owned i

/-- A call begins. -/
theorem Owns.call (h : Owns s) (hp : s.pc p = .idle)
    (hb : ∀ q r', (s.pc q).rw = some r' → r'.b ≠ r.b) (hf : u.disk.free = s.disk.free)
    (hu : u.pc = s.pc) : Owns (u.goto p (.enter r)) := by
  have hidx : ∀ q, ((u.goto p (.enter r)).pc q).idx = (s.pc q).idx :=
    goto_view PC.idx (fun q => by rw [hu]) (by rw [hp]; rfl)
  have hrw : ∀ q r', ((u.goto p (.enter r)).pc q).rw = some r' → (q = p ∧ r = r') ∨
      (q ≠ p ∧ (s.pc q).rw = some r') := fun q r' hq => by
    rw [← hu]; exact (goto_cases hq).imp_left fun hc => ⟨hc.1, Option.some.inj hc.2⟩
  refine ⟨fun q q' r1 r2 h1 h2 he => ?_, ?_, ?_, ?_, ?_⟩
  · rcases hrw q r1 h1 with ⟨rfl, rfl⟩ | ⟨-, k1⟩ <;> rcases hrw q' r2 h2 with ⟨rfl, rfl⟩ | ⟨-, k2⟩
    · rfl
    · exact absurd he.symm (hb q' r2 k2)
    · exact absurd he (hb q r1 k1)
    · exact h.bufs q q' r1 r2 k1 k2 he
  · intro q x; rw [hidx]; exact h.nodup q x
  · intro q x i; rw [hidx]; show _ → _ → u.disk.free i = false; rw [hf]; exact h.taken q x i
  · intro q q' x y i; rw [hidx, hidx]; exact h.disjoint q q' x y i
  · intro i hi; simp only [hidx]; exact h.owned i (by rwa [← hf])

/-- `alloc3_desc` succeeds. -/
theorem Owns.alloc (h : Owns s) (hp : s.pc p = .alloc r) (ha : Taken s x f) :
    Owns ((s.redo s.disk.desc f s.pc).goto p (.format r x)) := by
  have hrw : ∀ q, (((s.redo s.disk.desc f s.pc).goto p (.format r x)).pc q).rw = (s.pc q).rw :=
    goto_view PC.rw (fun _ => rfl) (by rw [hp]; rfl)
  have hidx : ∀ q y, (((s.redo s.disk.desc f s.pc).goto p (.format r x)).pc q).idx = some y →
      (q = p ∧ x = y) ∨ (q ≠ p ∧ (s.pc q).idx = some y) := fun q y hq =>
    (goto_cases hq).imp_left fun hc => ⟨hc.1, Option.some.inj hc.2⟩
  -- what others have was not free, so it is not in `x`
  have hother : ∀ q y i, (s.pc q).idx = some y → i ∈ y.toList → i ∉ x.toList := fun q y i hq hi hx =>
    absurd (ha.free i hx) (by rw [h.taken q y i hq hi]; simp)
  refine ⟨fun q q' r1 r2 => ?_, fun q y hq => ?_, fun q y i hq hi => (ha.taken i).trans ?_,
    fun q q' y z i hq hq' hi hi' => ?_, fun i hi => ?_⟩
  · rw [hrw, hrw]; exact h.bufs q q' r1 r2
  · rcases hidx q y hq with ⟨rfl, rfl⟩ | ⟨-, hq⟩
    · exact ha.nodup
    · exact h.nodup q y hq
  · rcases hidx q y hq with ⟨rfl, rfl⟩ | ⟨-, hq⟩
    · simp [hi]
    · simp [h.taken q y i hq hi]
  · rcases hidx q y hq with ⟨rfl, rfl⟩ | ⟨-, k⟩ <;> rcases hidx q' z hq' with ⟨rfl, rfl⟩ | ⟨-, k'⟩
    · rfl
    · exact absurd hi (hother q' z i k' hi')
    · exact absurd hi' (hother q y i k hi)
    · exact h.disjoint q q' y z i k k' hi hi'
  · have hi' := (ha.taken i).symm.trans hi
    by_cases hx : i ∈ x.toList
    · exact ⟨p, x, by rw [goto_pc_self]; rfl, hx⟩
    · obtain ⟨q, y, hq, hy⟩ := h.owned i (by simpa [hx] using hi')
      have hqp : q ≠ p := by rintro rfl; rw [hp] at hq; cases hq
      exact ⟨q, y, by rwa [goto_pc_ne _ _ hqp], hy⟩

/-- A call is over and its chain is freed. -/
theorem Owns.finish (h : Owns s) {d : Fin NUM → Desc B}
    {w : Fin N → PC B} (hp : s.pc p = .finish r x) (hF : Freed s x d f w) :
    Owns (((clearInfo s x).redo d f w).goto p .leave) := by
  have hpx : (s.pc p).idx = some x := by rw [hp]; rfl
  have hrw : ∀ q r', ((((clearInfo s x).redo d f w).goto p .leave).pc q).rw = some r' →
      (s.pc q).rw = some r' := fun q r' hq => by
    rcases goto_cases hq with ⟨-, hq⟩ | ⟨-, hq⟩
    · cases hq
    · exact (hF.woke q).rw ▸ hq
  have hidx : ∀ q y, ((((clearInfo s x).redo d f w).goto p .leave).pc q).idx = some y →
      q ≠ p ∧ (s.pc q).idx = some y := fun q y hq => by
    rcases goto_cases hq with ⟨-, hq⟩ | ⟨hqp, hq⟩
    · cases hq
    · exact ⟨hqp, (hF.woke q).idx ▸ hq⟩
  refine ⟨fun q q' r1 r2 h1 h2 => h.bufs q q' r1 r2 (hrw q r1 h1) (hrw q' r2 h2),
    fun q y hq => h.nodup q y (hidx q y hq).2, fun q y i hq hi => (hF.free i).trans ?_,
    fun q q' y z i hq hq' => h.disjoint q q' y z i (hidx q y hq).2 (hidx q' z hq').2, fun i hi => ?_⟩
  · obtain ⟨hqp, hq⟩ := hidx q y hq
    have hx : i ∉ x.toList := fun hx => hqp (h.disjoint q p y x i hq hpx hi hx)
    rw [h.taken q y i hq hi]; simpa using hx
  · obtain ⟨hfree, hx⟩ : s.disk.free i = false ∧ i ∉ x.toList := by
      simpa using (hF.free i).symm.trans hi
    obtain ⟨q, y, hq, hy⟩ := h.owned i hfree
    have hqp : q ≠ p := by
      rintro rfl
      exact hx (Option.some.inj (hpx.symm.trans hq) ▸ hy)
    exact ⟨q, y, by rw [goto_pc_ne _ _ hqp]; exact (hF.woke q).idx.trans hq, hy⟩

/-! ## Chains -/

/-- The request of a process, in the tables it shares with the device. -/
structure Formatted (s : Sys N M B D) (r : Rw B) (x : Idx) : Prop where
  linked : Linked s.disk r x
  ops : s.disk.ops x.i0 = blkReq r (s.buf r.b).blockno
  info : (s.disk.info x.i0).b = some r.b

theorem Formatted.congr (h : Formatted s r x)
    (hd : ∀ i ∈ x.toList, t.disk.desc i = s.disk.desc i) (ho : t.disk.ops x.i0 = s.disk.ops x.i0)
    (hi : (t.disk.info x.i0).b = (s.disk.info x.i0).b)
    (hb : (t.buf r.b).blockno = (s.buf r.b).blockno) : Formatted t r x where
  linked := ⟨(hd _ (by simp [Idx.toList])).trans h.linked.desc0,
      (hd _ (by simp [Idx.toList])).trans h.linked.desc1,
      (hd _ (by simp [Idx.toList])).trans h.linked.desc2⟩
  ops := by rw [ho, hb]; exact h.ops
  info := hi.trans h.info

structure Links (s : Sys N M B D) : Prop where
  linked : ∀ p r x, (s.pc p).linked = some (r, x) → Formatted s r x
  offers : ∀ p r x, (s.pc p).offers = some (r, x) → (s.buf r.b).disk = true

/-- No request is added, and those that stay are left as they are. -/
theorem Links.keep (h : Links s)
    (hl : ∀ q r x, (t.pc q).linked = some (r, x) → (s.pc q).linked = some (r, x) ∧
      (Formatted s r x → Formatted t r x))
    (ho : ∀ q r x, (t.pc q).offers = some (r, x) → (s.pc q).offers = some (r, x) ∧
      ((s.buf r.b).disk = true → (t.buf r.b).disk = true)) : Links t where
  linked q r x hq := (hl q r x hq).2 (h.linked q r x (hl q r x hq).1)
  offers q r x hq := (ho q r x hq).2 (h.offers q r x (ho q r x hq).1)

/-- The chain of a process has nothing in common with that of another. -/
theorem Owns.ne (h : Owns s) {y : Idx} (hpq : p ≠ q) (hp : (s.pc p).idx = some x)
    (hq : (s.pc q).idx = some y) {j : Fin NUM} (hi : i ∈ x.toList) (hj : j ∈ y.toList) : i ≠ j :=
  fun e => hpq (h.disjoint p q x y i hp hq hi (e ▸ hj))

theorem Owns.buf_ne (h : Owns s) {r' : Rw B} (hpq : p ≠ q)
    (hp : (s.pc p).rw = some r) (hq : (s.pc q).rw = some r') : r.b ≠ r'.b :=
  fun e => hpq (h.bufs p q r r' hp hq e)

theorem Idx.mem0 (x : Idx) : x.i0 ∈ x.toList := by simp [Idx.toList]
theorem Idx.mem1 (x : Idx) : x.i1 ∈ x.toList := by simp [Idx.toList]
theorem Idx.mem2 (x : Idx) : x.i2 ∈ x.toList := by simp [Idx.toList]

/-- The device reads off a chain what the driver wrote. -/
theorem readChain_formatted (h : Formatted s r x) :
    readChain s.disk x.i0 = some (blkReq r (s.buf r.b).blockno, r.b, x.i0) := by
  have hat : ∀ i : Fin NUM, descAt s.disk i = some (s.disk.desc i) := fun i => dif_pos i.isLt
  have h1 : descAt s.disk (desc0 (B := B) x).next = some (desc1 r x) :=
    (hat x.i1).trans (congrArg some h.linked.desc1)
  have h2 : descAt s.disk (desc1 r x).next = some (desc2 x) :=
    (hat x.i2).trans (congrArg some h.linked.desc2)
  rw [readChain, hat, h.linked.desc0, bind_eq_bind, bind_some, h1, bind_some, h2, bind_some]
  simp only [desc0, desc1, desc2, h.ops]
  have hT : VIRTIO_BLK_T_IN ≠ VIRTIO_BLK_T_OUT := by decide
  cases hw : r.write <;> simp [blkReq, hw, hT]

/-! ## Requests in flight -/

structure Flight (s : Sys N M B D) : Prop where
  nodup : s.live.Nodup
  live : ∀ n ∈ s.live, ∃ p r x, (s.pc p).waiting = some (r, x) ∧ n = x.i0 ∧ (s.buf r.b).disk = true
  posted : ∀ i : Fin NUM, (i : Nat) ∈ s.posted → (s.disk.info i).status = 0
  served : ∀ i : Fin NUM, ((i : Nat), true) ∈ s.dev.work → (s.disk.info i).status = 0
  bump : ∀ p r x, s.pc p = .bump r x → s.disk.avail.ring (slot NUM s.disk.avail.idx.toNat) = x.i0
  body : ∀ c, s.intr c = .body → s.posted ≠ []

theorem length_le_of_nodup {l : List Nat} (h : l.Nodup) (hlt : ∀ n ∈ l, n < k) : l.length ≤ k := by
  have hsub : l ⊆ List.range k := fun n hn => mem_range.mpr (hlt n hn)
  simpa using (subperm_of_subset h hsub).length_le

theorem Flight.lt (h : Flight s) (hn : n ∈ s.live) : n < NUM := by
  obtain ⟨p, r, x, -, rfl, -⟩ := h.live n hn
  exact x.i0.isLt

theorem Flight.length_live (h : Flight s) : s.live.length ≤ NUM :=
  length_le_of_nodup h.nodup fun _ hn => h.lt hn

/-- A descriptor that is not the head of a request leaves room in the rings. -/
theorem Flight.room (h : Flight s) (hi : (i : Nat) ∉ s.live) : s.live.length < NUM := by
  have hnd : ((i : Nat) :: s.live).Nodup := nodup_cons.mpr ⟨hi, h.nodup⟩
  refine length_le_of_nodup hnd fun n hn => ?_
  rcases mem_cons.mp hn with rfl | hn
  · exact i.isLt
  · exact h.lt hn

/-- A chain whose process does not wait is not in flight. -/
theorem Flight.not_live (h : Flight s) (ho : Owns s) (hx : (s.pc p).idx = some x)
    (hw : (s.pc p).waiting = none) (hi : i ∈ x.toList) : (i : Nat) ∉ s.live := by
  intro hn
  obtain ⟨q, r, y, hq, hiy, -⟩ := h.live _ hn
  obtain rfl : i = y.i0 := Fin.ext hiy
  have hy := (PC.idx_of_linked (PC.linked_of_waiting hq)).1
  obtain rfl := ho.disjoint p q x y _ hx hy hi y.mem0
  rw [hw] at hq; cases hq

theorem Flight.keep (h : Flight s) (hp : t.pend = s.pend) (hd : t.dev.work = s.dev.work)
    (hu : t.posted = s.posted)
    (hw : ∀ q r x, (s.pc q).waiting = some (r, x) → (s.buf r.b).disk = true →
      (t.pc q).waiting = some (r, x) ∧ (t.buf r.b).disk = true)
    (hst : ∀ i : Fin NUM, (i : Nat) ∈ s.live → (t.disk.info i).status = (s.disk.info i).status)
    (hb : ∀ p r x, t.pc p = .bump r x → t.disk.avail.ring (slot NUM t.disk.avail.idx.toNat) = x.i0)
    (hi : ∀ c, t.intr c = .body → s.posted ≠ []) : Flight t where
  nodup := by rw [Sys.live, hp, hd, hu]; exact h.nodup
  live n hn := by
    rw [Sys.live, hp, hd, hu] at hn
    obtain ⟨q, r, x, hq, hnx, hdisk⟩ := h.live n hn
    obtain ⟨hq', hdisk'⟩ := hw q r x hq hdisk
    exact ⟨q, r, x, hq', hnx, hdisk'⟩
  posted i hi := by
    rw [hu] at hi
    rw [hst i (mem_append_right _ hi)]; exact h.posted i hi
  served i hi := by
    rw [hd] at hi
    have hl : (i : Nat) ∈ s.live := mem_append_left _ (mem_append_right _
      (mem_map.mpr ⟨_, hi, rfl⟩))
    rw [hst i hl]; exact h.served i hi
  bump := hb
  body c hc := hu ▸ hi c hc

/-! ## The steps that go through a function -/

structure Inv (s : Sys N M B D) : Prop where
  locks : Locks s
  owns : Owns s
  links : Links s
  flight : Flight s

/-- The chain that `virtio_disk_rw` frees at its end is the one it has. -/
theorem Inv.freeChain (h : Inv s) (hp : s.pc p = .finish r x) :
    ∃ d f w, freeChain (clearInfo s x) x.i0 = .ok ((clearInfo s x).redo d f w) ∧ Freed s x d f w := by
  have hidx : (s.pc p).idx = some x := by rw [hp]; rfl
  have hlinked := (h.links.linked p r x (by rw [hp]; rfl)).linked
  obtain ⟨d, f, w, hf, hF⟩ := freeChain_spec (s := clearInfo s x)
    ⟨hlinked.desc0, hlinked.desc1, hlinked.desc2⟩ (h.owns.nodup p x hidx) fun i hi =>
      h.owns.taken p x i hidx hi
  exact ⟨d, f, w, hf, hF.desc, hF.free, hF.woke⟩

theorem posted_ne_nil (h : s.posted ≠ []) : s.disk.usedIdx ≠ s.disk.used.idx := by
  intro e
  apply h
  rw [Sys.posted, e, entries_self]

theorem mem_live_of_work (h : (n, v) ∈ s.dev.work) : n ∈ s.live :=
  mem_append_left _ (mem_append_right _ (mem_map.mpr ⟨_, h, rfl⟩))

/-- A step that leaves the rings, the device and all flags of waiting processes alone. -/
theorem Flight.goto (h : Flight s) (ha : u.disk.avail = s.disk.avail)
    (hus : u.disk.used = s.disk.used) (hidx : u.disk.usedIdx = s.disk.usedIdx) (hdev : u.dev = s.dev)
    (hint : u.intr = s.intr) (hu : ∀ q, (s.pc q).Woke (u.pc q))
    (hpc : ∀ r x, pc = .bump r x → s.pc p = .bump r x)
    (hw : ∀ r x, (s.pc p).waiting = some (r, x) → (s.buf r.b).disk = true → pc.waiting = some (r, x))
    (hb : ∀ b, (s.buf b).disk = true → (u.buf b).disk = true)
    (hst : ∀ i : Fin NUM, (i : Nat) ∈ s.live → (u.disk.info i).status = (s.disk.info i).status) :
    Flight (u.goto p pc) := by
  refine h.keep ?_ ?_ ?_ (fun q r x hq hd => ⟨?_, hb _ hd⟩) hst (fun q r x hq => ?_) fun c hc => ?_
  · show entries u.disk.avail.ring u.dev.seen u.disk.avail.idx = _; rw [ha, hdev]; rfl
  · show u.dev.work = _; rw [hdev]
  · show entries u.disk.used.ring u.disk.usedIdx u.disk.used.idx = _; rw [hus, hidx]; rfl
  · by_cases hqp : q = p
    · subst hqp; rw [goto_pc_self]; exact hw r x hq hd
    · rwa [goto_pc_ne _ _ hqp, (hu q).waiting]
  · by_cases hqp : q = p
    · subst hqp
      rw [goto_pc_self] at hq
      show u.disk.avail.ring (slot NUM u.disk.avail.idx.toNat) = _
      rw [ha]; exact h.bump q r x (hpc r x hq)
    · rw [goto_pc_ne _ _ hqp] at hq
      show u.disk.avail.ring (slot NUM u.disk.avail.idx.toNat) = _
      rw [ha]; exact h.bump q r x (hq ▸ hu q).of_bump
  · exact h.body c (hint ▸ hc)

/-- A step of a handler that leaves all else alone. -/
theorem Flight.gotoIntr (h : Flight s) {pc : Intr} (hc : pc = .body → s.posted ≠ [])
    (l : Option (Fin N ⊕ Fin M)) : Flight (Sys.gotoIntr { s with lock := l } c pc) := by
  refine h.keep rfl rfl rfl (fun q r x hq hd => ⟨hq, hd⟩) (fun _ _ => rfl) h.bump fun d hd => ?_
  by_cases hdc : d = c
  · subst hdc; exact hc (by simpa [Sys.gotoIntr] using hd)
  · exact h.body d (by simpa [Sys.gotoIntr, hdc] using hd)

/-- Two processes are not inside `vdisk_lock` at once, nor two handlers. -/
theorem Locks.uniq (h : Locks s) {o o' : Fin N ⊕ Fin M} (ho : s.holds o = true)
    (ho' : s.holds o' = true) : o = o' :=
  Option.some.inj (((h o).mpr ho).symm.trans ((h o').mpr ho'))

/-- At most one process is inside `vdisk_lock`. -/
theorem Inv.one_holder (h : Inv s) (hp : (s.pc p).holds = true)
    (hq : (s.pc q).holds = true) : p = q :=
  Sum.inl.inj (h.locks.uniq hp hq)

/-- The avail ring has room for the request of a process that does not wait yet. -/
theorem Inv.pend_room (h : Inv s) (hx : (s.pc p).idx = some x)
    (hw : (s.pc p).waiting = none) : s.pend.length < NUM := by
  have := h.flight.room (h.flight.not_live h.owns hx hw x.mem0)
  simp only [Sys.live, length_append] at this
  omega

theorem pend_store (x : Idx) (hroom : s.pend.length < NUM) : (putAvail s x).pend = s.pend :=
  entries_store (by decide) _ hroom _

theorem pend_bump (hroom : s.pend.length < NUM) :
    (bumpAvail s).pend = s.pend ++ [s.disk.avail.ring (slot NUM s.disk.avail.idx.toNat)] :=
  entries_push (by decide) _ (by decide) hroom

theorem Inv.flight_ring (h : Inv s) (hp : s.pc p = .ring r x) :
    Flight ((putAvail s x).goto p (.bump r x)) := by
  have hroom := h.pend_room (by rw [hp]; rfl) (by rw [hp]; rfl)
  refine h.flight.keep (pend_store x hroom) rfl rfl (fun q r' y hq hd => ⟨?_, hd⟩)
    (fun _ _ => rfl) (fun q r' y hq => ?_) h.flight.body
  · by_cases hqp : q = p
    · subst hqp; rw [hp] at hq; cases hq
    · rwa [goto_pc_ne _ _ hqp]
  · by_cases hqp : q = p
    · subst hqp
      rw [goto_pc_self] at hq
      cases hq
      exact update_self ..
    · -- the lock keeps others from being there too
      rw [goto_pc_ne _ _ hqp] at hq
      have hq' : s.pc q = .bump r' y := hq
      exact absurd (h.one_holder (by rw [hq']; rfl) (by rw [hp]; rfl)) hqp

theorem Inv.flight_bump (h : Inv s) (hp : s.pc p = .bump r x) :
    Flight ((bumpAvail s).goto p (.wait r x)) := by
  have hpx : (s.pc p).idx = some x := by rw [hp]; rfl
  have hpw : (s.pc p).waiting = none := by rw [hp]; rfl
  have hroom := h.pend_room hpx hpw
  have hpend : ((bumpAvail s).goto p (.wait r x)).pend = s.pend ++ [(x.i0 : Nat)] := by
    rw [← h.flight.bump p r x hp]; exact pend_bump hroom
  have hperm : ((bumpAvail s).goto p (.wait r x)).live.Perm ((x.i0 : Nat) :: s.live) := by
    rw [Sys.live, hpend]
    rw [append_assoc, append_assoc, singleton_append, Sys.live, append_assoc]
    exact perm_middle
  have hne : ∀ q r' y, (s.pc q).waiting = some (r', y) → q ≠ p := by
    rintro q r' y hq rfl; rw [hpw] at hq; cases hq
  refine ⟨?_, fun n hn => ?_, h.flight.posted, h.flight.served, fun q r' y hq => ?_, h.flight.body⟩
  · exact hperm.nodup_iff.mpr (nodup_cons.mpr
      ⟨h.flight.not_live h.owns hpx hpw x.mem0, h.flight.nodup⟩)
  · rcases mem_cons.mp (hperm.mem_iff.mp hn) with rfl | hn
    · exact ⟨p, r, x, by rw [goto_pc_self]; rfl, rfl, h.links.offers p r x (by rw [hp]; rfl)⟩
    · obtain ⟨q, r', y, hq, hny, hd⟩ := h.flight.live n hn
      exact ⟨q, r', y, by rwa [goto_pc_ne _ _ (hne q r' y hq)], hny, hd⟩
  · by_cases hqp : q = p
    · subst hqp; rw [goto_pc_self] at hq; cases hq
    · have hq' : s.pc q = .bump r' y := (goto_pc_ne _ _ hqp).symm.trans hq
      exact absurd (h.one_holder (by rw [hq']; rfl) (by rw [hp]; rfl)) hqp

variable [DecidableEq B]

/-- The loop of `virtio_disk_intr` finds the request of a waiting process. -/
theorem Inv.handle (h : Inv s) (hc : s.intr c = .body) : ∃ p r x, (s.pc p).waiting = some (r, x) ∧
    s.posted = (x.i0 : Nat) :: (s.handled r.b).posted ∧ handle s = .ok (s.handled r.b) := by
  have hpop := entries_pop (by decide) s.disk.used.ring (posted_ne_nil (h.flight.body c hc))
  have hmem : s.disk.used.ring (slot NUM s.disk.usedIdx.toNat) ∈ s.posted := by
    rw [Sys.posted, hpop]; exact mem_cons_self
  obtain ⟨p, r, x, hw, hx, -⟩ := h.flight.live _ (mem_append_right _ hmem)
  refine ⟨p, r, x, hw, by rw [Sys.posted, hpop, hx]; rfl, ?_⟩
  have hst : (s.disk.info x.i0).status = 0 := h.flight.posted x.i0 (hx ▸ hmem)
  have hb : (s.disk.info x.i0).b = some r.b := (h.links.linked p r x (PC.linked_of_waiting hw)).info
  rw [Virtio.handle]
  simp only [hx, x.i0.isLt, dite_true, Fin.eta, hst, hb]
  rfl

section served
variable (s) (r : Rw B) (x : Idx) (k : Nat)

@[simp] theorem served_pc : (s.served r x k).pc = s.pc := by
  simp only [Sys.served, transfer]; split <;> rfl

@[simp] theorem served_intr : (s.served r x k).intr = s.intr := by
  simp only [Sys.served, transfer]; split <;> rfl

@[simp] theorem served_lock : (s.served r x k).lock = s.lock := by
  simp only [Sys.served, transfer]; split <;> rfl

/-- The data of the buffer is all that the device writes in it. -/
theorem served_buf (b : B) : ((s.served r x k).buf b).disk = (s.buf b).disk ∧
    ((s.served r x k).buf b).blockno = (s.buf b).blockno := by
  simp only [Sys.served, transfer]
  split
  · exact ⟨rfl, rfl⟩
  · by_cases hb : b = r.b
    · subst hb; simp
    · simp [hb]

end served

/-- What the device has taken it can carry out: it finds a chain there, and the
request is that of a process which waits for it. -/
theorem Inv.serve (h : Inv s) (hk : s.dev.work[k]? = some (n, false)) :
    ∃ p r x, (s.pc p).waiting = some (r, x) ∧ n = x.i0 ∧ devServe s k = some (s.served r x k) := by
  obtain ⟨p, r, x, hw, rfl, -⟩ := h.flight.live n (mem_live_of_work (mem_of_getElem? hk))
  refine ⟨p, r, x, hw, rfl, ?_⟩
  have hread := readChain_formatted (h.links.linked p r x (PC.linked_of_waiting hw))
  rw [devServe, hk]
  simp only [hread, map_some, Sys.served, transfer]
  split <;> rfl

theorem Inv.sound (h : Inv s) : Sound s := ⟨h.freeChain, h.handle, h.serve⟩

/-! ## Every step keeps them -/

variable {a : Act N M B D}

omit [DecidableEq B] in
theorem woke_refl (q : Fin N) : (s.pc q).Woke (s.pc q) := .same _

theorem Inv.locks_step (h : Inv s) (hn : Next s a t) : Locks t := by
  have hheld {p : Fin N} {pc : PC B} (hp : s.pc p = pc) : s.holds (.inl p) = pc.holds := by
    rw [Sys.holds, hp]
  have hheldi {c : Fin M} {pc : Intr} (hc : s.intr c = pc) : s.holds (.inr c) = pc.holds := by
    rw [Sys.holds, hc]
  cases hn with
  | call hp _ | alloc hp _ | format hp | ring hp | bump hp | done hp _ =>
    exact h.locks.keep (holds_goto woke_refl rfl) rfl (hheld hp).symm
  | enter hp hl | relock hp hl => exact h.locks.acquire (holds_goto woke_refl rfl) hl rfl rfl
  | starve hp hF => exact h.locks.release (holds_goto hF.woke rfl) (hheld hp) rfl rfl
  | sleep hp _ | leave hp => exact h.locks.release (holds_goto woke_refl rfl) (hheld hp) rfl rfl
  | finish hp hF => exact h.locks.keep (holds_goto hF.woke rfl) rfl (hheld hp).symm
  | kill hp => exact h.locks.keep (holds_goto woke_refl rfl) rfl hp.holds
  | irq hc | more hc _ | last hc _ =>
    exact h.locks.keep (holds_gotoIntr woke_refl rfl) rfl (hheldi hc).symm
  | intrEnter hc hl => exact h.locks.acquire (holds_gotoIntr woke_refl rfl) hl rfl rfl
  | handle hc _ _ =>
    exact h.locks.keep (holds_gotoIntr (fun q => PC.wakeBuf_woke _ _) rfl) rfl (hheldi hc).symm
  | intrLeave hc => exact h.locks.release (holds_gotoIntr woke_refl rfl) (hheldi hc) rfl rfl
  | take _ | post _ => exact h.locks
  | serve _ _ => intro o; cases o <;> simp [Sys.holds, h.locks _]

theorem Inv.owns_step (h : Inv s) (hn : Next s a t) : Owns t := by
  have hgoto {u : Sys N M B D} {p : Fin N} {pc : PC B} (hf : u.disk.free = s.disk.free)
      (hu : ∀ q, (s.pc q).Woke (u.pc q)) (hr : pc.rw = (s.pc p).rw) (hi : pc.idx = (s.pc p).idx) :
      Owns (u.goto p pc) :=
    h.owns.congr hf (goto_view PC.rw (fun q => (hu q).rw) hr)
      (goto_view PC.idx (fun q => (hu q).idx) hi)
  cases hn with
  | call hp hb => exact h.owns.call hp hb rfl rfl
  | enter hp _ | format hp | ring hp | bump hp | sleep hp _ | done hp _ | relock hp _ | leave hp =>
    exact hgoto rfl woke_refl (by rw [hp]; rfl) (by rw [hp]; rfl)
  | alloc hp hT => exact h.owns.alloc hp hT
  | starve hp hF => exact hgoto rfl hF.woke (by rw [hp]; rfl) (by rw [hp]; rfl)
  | finish hp hF => exact h.owns.finish hp hF
  | kill hp => exact hgoto rfl woke_refl hp.rw hp.idx
  | handle _ _ _ =>
    exact h.owns.congr rfl (fun q => (PC.wakeBuf_woke _ _).rw) fun q => (PC.wakeBuf_woke _ _).idx
  | serve _ _ => exact h.owns.congr rfl (fun q => by rw [served_pc]) fun q => by rw [served_pc]
  | _ => exact h.owns.congr rfl (fun _ => rfl) fun _ => rfl

/-- The formatting of a chain leaves all others alone. -/
theorem Inv.links_format (h : Inv s) (hp : s.pc p = .format r x) :
    Links ((formatReq s r x).goto p (.ring r x)) := by
  have hpx : (s.pc p).idx = some x := by rw [hp]; rfl
  have hpr : (s.pc p).rw = some r := by rw [hp]; rfl
  have hnd := h.owns.nodup p x hpx
  simp only [Idx.toList, nodup_cons, mem_cons, not_mem_nil, or_false, not_or,
    nodup_nil, and_true, not_false_eq_true] at hnd
  obtain ⟨⟨h01, h02⟩, h12⟩ := hnd
  have hother : ∀ q, q ≠ p → ∀ r' y, (s.pc q).linked = some (r', y) → Formatted s r' y →
      Formatted ((formatReq s r x).goto p (.ring r x)) r' y := by
    intro q hq r' y hl hF
    obtain ⟨hqy, hqr⟩ := PC.idx_of_linked hl
    have hne : ∀ i ∈ y.toList, ∀ j ∈ x.toList, i ≠ j := fun i hi j hj =>
      h.owns.ne hq hqy hpx hi hj
    have hb : r'.b ≠ r.b := h.owns.buf_ne hq hqr hpr
    refine hF.congr (fun i hi => ?_) (update_of_ne (hne _ y.mem0 _ x.mem0) ..) ?_ ?_
    · exact (update_of_ne (hne i hi _ x.mem2) ..).trans
        ((update_of_ne (hne i hi _ x.mem1) ..).trans
          (update_of_ne (hne i hi _ x.mem0) ..))
    · exact congrArg Info.b (update_of_ne (hne _ y.mem0 _ x.mem0) ..)
    · exact congrArg Buf.blockno (update_of_ne hb ..)
  refine ⟨fun q r' y hq => ?_, fun q r' y hq => ?_⟩
  · rcases goto_cases hq with ⟨-, hq⟩ | ⟨hqp, hq⟩
    · obtain ⟨rfl, rfl⟩ : r = r' ∧ x = y := by simpa [PC.linked] using hq
      exact ⟨⟨by simp [formatReq, Sys.goto, h01, h02], by simp [formatReq, Sys.goto, h12],
        by simp [formatReq, Sys.goto]⟩, by simp [formatReq, Sys.goto], by simp [formatReq, Sys.goto]⟩
    · exact hother q hqp r' y hq (h.links.linked q r' y hq)
  · rcases goto_cases hq with ⟨-, hq⟩ | ⟨hqp, hq⟩
    · obtain ⟨rfl, rfl⟩ : r = r' ∧ x = y := by simpa [PC.offers] using hq
      simp [formatReq, Sys.goto]
    · have hqr := (PC.idx_of_linked (PC.linked_of_offers hq).1).2
      have hb : r'.b ≠ r.b := h.owns.buf_ne hqp hqr hpr
      simpa [formatReq, Sys.goto, hb] using h.links.offers q r' y hq

omit [DecidableEq B] in
/-- A step of `p` adds no request, and leaves the others' as they are. -/
theorem Links.goto (h : Links s) (hu : ∀ q, (s.pc q).Woke (u.pc q))
    (hl : ∀ r x, y.linked = some (r, x) → (s.pc p).linked = some (r, x))
    (ho : ∀ r x, y.offers = some (r, x) → (s.pc p).offers = some (r, x))
    (hF : ∀ q r x, (q = p → y.linked = some (r, x)) → (s.pc q).linked = some (r, x) →
      Formatted s r x → Formatted u r x)
    (hb : ∀ q r x, (s.pc q).offers = some (r, x) → (s.buf r.b).disk = true → (u.buf r.b).disk = true) :
    Links (u.goto p y) where
  linked q r x hq := by
    have hq' : (s.pc q).linked = some (r, x) ∧ (q = p → y.linked = some (r, x)) := by
      rcases goto_cases hq with ⟨rfl, hy⟩ | ⟨hqp, hq⟩
      · exact ⟨hl r x hy, fun _ => hy⟩
      · exact ⟨(hu q).linked ▸ hq, fun e => absurd e hqp⟩
    have hF' := hF q r x hq'.2 hq'.1 (h.linked q r x hq'.1)
    exact ⟨hF'.linked, hF'.ops, hF'.info⟩
  offers q r x hq := by
    have hq' : (s.pc q).offers = some (r, x) := by
      rcases goto_cases hq with ⟨rfl, hy⟩ | ⟨-, hq⟩
      · exact ho r x hy
      · exact (hu q).offers ▸ hq
    exact hb q r x hq' (h.offers q r x hq')

theorem Inv.links_step (h : Inv s) (hn : Next s a t) : Links t := by
  -- a step that changes none of the tables
  have hgoto {u : Sys N M B D} {p : Fin N} {y : PC B} (hu : ∀ q, (s.pc q).Woke (u.pc q))
      (hd : u.disk.desc = s.disk.desc) (hops : u.disk.ops = s.disk.ops)
      (hi : u.disk.info = s.disk.info) (hb : u.buf = s.buf)
      (hl : ∀ r x, y.linked = some (r, x) → (s.pc p).linked = some (r, x))
      (ho : ∀ r x, y.offers = some (r, x) → (s.pc p).offers = some (r, x)) : Links (u.goto p y) :=
    h.links.goto hu hl ho (fun q r x _ _ hF => hF.congr (fun i _ => by rw [hd]) (by rw [hops])
      (by rw [hi]) (by rw [hb])) fun q r x _ hB => hb ▸ hB
  cases hn with
  | @call p r blockno data hp hb =>
    refine h.links.goto woke_refl nofun nofun (fun q r' x _ hq hF => ?_) fun q r' x hq hd => ?_
    · exact hF.congr (fun _ _ => rfl) rfl rfl
        (congrArg Buf.blockno (update_of_ne (hb q r' (PC.idx_of_linked hq).2) ..))
    · have hne := hb q r' (PC.idx_of_linked (PC.linked_of_offers hq).1).2
      simpa [setBuf, hne] using hd
  | enter hp _ | alloc hp _ | leave hp => exact hgoto woke_refl rfl rfl rfl rfl nofun nofun
  | bump hp | sleep hp _ | done hp _ | relock hp _ =>
    exact hgoto woke_refl rfl rfl rfl rfl (by rw [hp]; exact fun _ _ e => e) nofun
  | starve hp hF =>
    exact h.links.goto hF.woke nofun nofun (fun q r' x _ hq hF' => hF'.congr (fun i hi =>
      hF.desc i (h.owns.taken q x i (PC.idx_of_linked hq).1 hi)) rfl rfl rfl) fun _ _ _ _ hB => hB
  | format hp => exact h.links_format hp
  | ring hp =>
    exact hgoto woke_refl rfl rfl rfl rfl (by rw [hp]; exact fun _ _ e => e)
      (by rw [hp]; exact fun _ _ e => e)
  | @finish p r x d f w hp hF =>
    have hpx : (s.pc p).idx = some x := by rw [hp]; rfl
    refine h.links.goto hF.woke nofun nofun (fun q r' y hqp hq hF' => ?_) fun _ _ _ _ hB => hB
    have hqy := (PC.idx_of_linked hq).1
    have hne : ∀ i ∈ y.toList, ∀ j ∈ x.toList, i ≠ j := fun i hi j hj =>
      h.owns.ne (fun e => nomatch hqp e) hqy hpx hi hj
    exact hF'.congr (fun i hi => hF.desc i fun hix => hne i hi i hix rfl) rfl
      (congrArg Info.b (update_of_ne (hne _ y.mem0 _ x.mem0) ..)) rfl
  | kill hp =>
    exact hgoto woke_refl rfl rfl rfl rfl (fun _ _ e => hp.linked ▸ e) fun _ _ e => hp.offers ▸ e
  | @handle c p r x hc hw _ =>
    have hpr := (PC.idx_of_linked (PC.linked_of_waiting hw)).2
    refine h.links.keep (fun q r' y hq => ?_) fun q r' y hq => ?_
    · have hq' : (s.pc q).linked = some (r', y) := (PC.wakeBuf_woke r.b (s.pc q)).linked ▸ hq
      refine ⟨hq', fun hF => hF.congr (fun _ _ => rfl) rfl rfl ?_⟩
      by_cases hb : r'.b = r.b <;> simp [Sys.gotoIntr, Sys.handled, hb]
    · have hq' : (s.pc q).offers = some (r', y) := (PC.wakeBuf_woke r.b (s.pc q)).offers ▸ hq
      have hqp : q ≠ p := by
        rintro rfl
        rw [(PC.linked_of_offers hq').2] at hw; cases hw
      have hb : r'.b ≠ r.b := h.owns.buf_ne hqp (PC.idx_of_linked (PC.linked_of_offers hq').1).2 hpr
      exact ⟨hq', fun hd => by simpa [Sys.gotoIntr, Sys.handled, hb] using hd⟩
  | @serve k p r x _ _ =>
    refine h.links.keep (fun q r' y hq => ?_) fun q r' y hq => ?_
    · rw [served_pc] at hq
      refine ⟨hq, fun hF => hF.congr (fun _ _ => rfl) rfl ?_ (served_buf s r x k r'.b).2⟩
      show (update s.disk.info x.i0 _ y.i0).b = _
      by_cases hyx : y.i0 = x.i0
      · rw [hyx, update_self]
      · rw [update_of_ne hyx]
    · rw [served_pc] at hq
      exact ⟨hq, fun hd => (served_buf s r x k r'.b).1.trans hd⟩
  | _ =>
    exact h.links.keep (fun q r x hq => ⟨hq, fun hF => hF.congr (fun _ _ => rfl) rfl rfl rfl⟩)
      fun q r x hq => ⟨hq, id⟩

/-! ## The steps that move a request -/

/-- A head goes from one place to another. -/
theorem perm_take (n : Nat) (a b c : List Nat) :
    (a ++ (b ++ [n]) ++ c).Perm (n :: a ++ b ++ c) := by
  rw [perm_iff_count]
  simp only [count_append, count_cons, count_nil]
  omega

theorem perm_post {e w : List Nat} (h : (n :: e).Perm w) (a c : List Nat) :
    (a ++ e ++ (c ++ [n])).Perm (a ++ w ++ c) := by
  rw [perm_iff_count] at h ⊢
  intro m
  have := h m
  simp only [count_append, count_cons, count_nil] at this ⊢
  omega

omit [DecidableEq B] in
theorem pend_took (hne : s.dev.seen ≠ s.disk.avail.idx) :
    s.pend = s.disk.avail.ring (slot NUM s.dev.seen.toNat) :: s.took.pend :=
  entries_pop (by decide) _ hne

omit [DecidableEq B] in
/-- The device takes a request. -/
theorem Inv.flight_take (h : Inv s) (hne : s.dev.seen ≠ s.disk.avail.idx) : Flight s.took := by
  have hperm : s.took.live.Perm s.live := by
    rw [Sys.live, Sys.live, pend_took hne, Sys.took, map_append, map_singleton]
    exact perm_take ..
  refine ⟨hperm.nodup_iff.mpr h.flight.nodup, fun n hn => h.flight.live n (hperm.mem_iff.mp hn),
    h.flight.posted, fun i hi => ?_, h.flight.bump, h.flight.body⟩
  rcases mem_append.mp hi with hi | hi
  · exact h.flight.served i hi
  · simp at hi

theorem served_heads (hk : s.dev.work[k]? = some ((x.i0 : Nat), false)) :
    (s.served r x k).dev.work.map Prod.fst = s.dev.work.map Prod.fst := by
  show (s.dev.work.set k (↑x.i0, true)).map Prod.fst = _
  obtain ⟨hlt, hk⟩ := List.getElem?_eq_some_iff.mp hk
  rw [map_set]
  refine (congrArg _ ?_).trans (set_getElem_self (by simpa using hlt))
  simp [hk]

/-- The device carries out a request. -/
theorem Inv.flight_serve (h : Inv s)
    (hk : s.dev.work[k]? = some ((x.i0 : Nat), false)) : Flight (s.served r x k) := by
  have hlive : (s.served r x k).live = s.live := by
    rw [Sys.live, served_heads hk]; rfl
  have hst : ∀ i, (s.disk.info i).status = 0 → ((s.served r x k).disk.info i).status = 0 := by
    intro i hi
    show (update s.disk.info x.i0 _ i).status = 0
    by_cases hix : i = x.i0
    · subst hix; rw [update_self]
    · rwa [update_of_ne hix]
  refine ⟨hlive ▸ h.flight.nodup, fun n hn => ?_, fun i hi => hst i (h.flight.posted i hi),
    fun i hi => ?_, fun q r' y hq => h.flight.bump q r' y (by rwa [served_pc] at hq),
    fun c hc => h.flight.body c (by rwa [served_intr] at hc)⟩
  · obtain ⟨p, r', y, hw, hn, hd⟩ := h.flight.live n (hlive ▸ hn)
    exact ⟨p, r', y, by rwa [served_pc], hn, (served_buf s r x k r'.b).1.trans hd⟩
  · rcases mem_or_eq_of_mem_set hi with hi | hi
    · exact hst i (h.flight.served i hi)
    · obtain rfl : i = x.i0 := Fin.ext (Prod.mk.inj hi).1
      show (update s.disk.info x.i0 _ x.i0).status = 0
      rw [update_self]

omit [DecidableEq B] in
theorem erase_heads (hk : s.dev.work[k]? = some (n, v)) :
    (n :: (s.dev.work.eraseIdx k).map Prod.fst).Perm (s.dev.work.map Prod.fst) := by
  have hmem := mem_of_getElem? hk
  obtain ⟨hlt, hk⟩ := List.getElem?_eq_some_iff.mp hk
  have herase : (s.dev.work.erase (n, v)).Perm (s.dev.work.eraseIdx k) := by
    rw [← hk]; exact erase_getElem hlt
  exact ((herase.symm.cons (n, v)).trans (perm_cons_erase hmem).symm).map Prod.fst

omit [DecidableEq B] in
/-- The device posts a request. -/
theorem Inv.flight_post (h : Inv s) (hk : s.dev.work[k]? = some (n, true)) :
    Flight (s.posts k n) ∧ (s.posts k n).posted = s.posted ++ [n] := by
  have hpermw := erase_heads hk
  -- `n` itself is in flight and not posted, so there is room
  have hroom : s.posted.length < NUM := by
    have := h.flight.length_live
    simp only [Sys.live, length_append, ← hpermw.length_eq, length_cons] at this
    omega
  have hposted : (s.posts k n).posted = s.posted ++ [n] := by
    have hstore : entries (s.posts k n).disk.used.ring (s.posts k n).disk.usedIdx s.disk.used.idx
        = s.posted := entries_store (by decide) s.disk.used.ring hroom n
    refine (entries_push (by decide) _ (by decide) (by rwa [hstore])).trans ?_
    rw [hstore]
    exact congrArg _ (congrArg (fun m => [m]) (update_self ..))
  have hperm : (s.posts k n).live.Perm s.live := by
    rw [Sys.live, hposted]
    exact perm_post hpermw s.pend s.posted
  refine ⟨⟨hperm.nodup_iff.mpr h.flight.nodup, fun m hm => h.flight.live m (hperm.mem_iff.mp hm),
    fun i hi => ?_, fun i hi => h.flight.served i (mem_of_mem_eraseIdx hi), h.flight.bump,
    fun c _ => by rw [hposted]; simp⟩, hposted⟩
  rw [hposted] at hi
  rcases mem_append.mp hi with hi | hi
  · exact h.flight.posted i hi
  · obtain rfl : (i : Nat) = n := by simpa using hi
    exact h.flight.served i (mem_of_getElem? hk)

/-- A posted request is handled. -/
theorem Inv.flight_handle (h : Inv s) (hc : s.intr c = .body) (hw : (s.pc p).waiting = some (r, x))
    (hpop : s.posted = (x.i0 : Nat) :: (s.handled r.b).posted) :
    Flight ((s.handled r.b).gotoIntr c .look) := by
  have hperm : s.live.Perm ((x.i0 : Nat) :: ((s.handled r.b).gotoIntr c .look).live) := by
    rw [Sys.live, hpop]
    exact perm_middle
  have hnd := hperm.nodup_iff.mp h.flight.nodup
  have hpr := (PC.idx_of_linked (PC.linked_of_waiting hw)).2
  refine ⟨(nodup_cons.mp hnd).2, fun n hn => ?_, fun i hi => ?_, h.flight.served,
    fun q r' y hq => ?_, fun d hd => ?_⟩
  · obtain ⟨q, r', y, hq, hny, hd⟩ := h.flight.live n (hperm.mem_iff.mpr (mem_cons_of_mem _ hn))
    refine ⟨q, r', y, (PC.wakeBuf_woke r.b _).waiting.trans hq, hny, ?_⟩
    -- another request is of another process and for another buffer
    have hqp : q ≠ p := by
      rintro rfl
      obtain ⟨rfl, rfl⟩ : r = r' ∧ x = y := by simpa using hw.symm.trans hq
      exact (nodup_cons.mp hnd).1 (hny ▸ hn)
    have hb : r'.b ≠ r.b := h.owns.buf_ne hqp (PC.idx_of_linked (PC.linked_of_waiting hq)).2 hpr
    simpa [Sys.gotoIntr, Sys.handled, hb] using hd
  · exact h.flight.posted i (hpop ▸ mem_cons_of_mem _ hi)
  · have hq' : (s.pc q).wakeBuf r.b = .bump r' y := hq
    exact h.flight.bump q r' y (hq' ▸ PC.wakeBuf_woke r.b (s.pc q)).of_bump
  · by_cases hdc : d = c
    · subst hdc; simp [Sys.gotoIntr] at hd
    · have hd' : s.intr d = .body := by simpa [Sys.gotoIntr, Sys.handled, hdc] using hd
      have := h.locks.uniq (show s.holds (.inr d) = true by rw [Sys.holds, hd']; rfl)
        (show s.holds (.inr c) = true by rw [Sys.holds, hc]; rfl)
      exact absurd (Sum.inr.inj this) hdc

theorem Inv.flight_step (h : Inv s) (hn : Next s a t) : Flight t := by
  -- a process that moves on without having waited, or that goes on waiting
  have hmove {p : Fin N} {pc : PC B} (l : Option (Fin N ⊕ Fin M))
      (hpc : ∀ r x, pc = .bump r x → s.pc p = .bump r x)
      (hw : ∀ r x, (s.pc p).waiting = some (r, x) → (s.buf r.b).disk = true →
        pc.waiting = some (r, x)) : Flight (Sys.goto { s with lock := l } p pc) :=
    h.flight.goto rfl rfl rfl rfl rfl woke_refl hpc hw (fun _ hb => hb)
      fun _ _ => rfl
  cases hn with
  | @call p r blockno data hp hb =>
    refine h.flight.goto rfl rfl rfl rfl rfl woke_refl nofun
      (by rw [hp]; nofun) (fun b hd => ?_) fun _ _ => rfl
    by_cases hbr : b = r.b
    · subst hbr; simpa [setBuf] using hd
    · simpa [setBuf, hbr] using hd
  | enter hp _ | leave hp => exact hmove _ nofun (by rw [hp]; nofun)
  | alloc hp hT =>
    exact h.flight.goto rfl rfl rfl rfl rfl woke_refl nofun (by rw [hp]; nofun) (fun _ hd => hd)
      fun _ _ => rfl
  | starve hp hF =>
    exact h.flight.goto rfl rfl rfl rfl rfl hF.woke nofun (by rw [hp]; nofun) (fun _ hd => hd)
      fun _ _ => rfl
  | @format p r x hp =>
    have hx : (s.pc p).idx = some x := by rw [hp]; rfl
    have hw : (s.pc p).waiting = none := by rw [hp]; rfl
    refine h.flight.goto rfl rfl rfl rfl rfl woke_refl nofun
      (by rw [hw]; nofun) (fun b hd => ?_) fun i hi => ?_
    · by_cases hbr : b = r.b
      · subst hbr; simp [formatReq]
      · simpa [formatReq, hbr] using hd
    · have hix : i ≠ x.i0 := by
        rintro rfl; exact h.flight.not_live h.owns hx hw x.mem0 hi
      simp [formatReq, hix]
  | ring hp => exact h.flight_ring hp
  | bump hp => exact h.flight_bump hp
  | sleep hp _ | relock hp _ => exact hmove _ nofun (by rw [hp]; exact fun r x hq _ => hq)
  | @done p r x hp hd =>
    refine hmove s.lock nofun fun r' y hq hd' => ?_
    rw [hp] at hq
    cases hq
    rw [hd] at hd'; cases hd'
  | @finish p r x d f w hp hF =>
    refine h.flight.goto rfl rfl rfl rfl rfl hF.woke nofun (by rw [hp]; nofun) (fun _ hd => hd)
      fun i _ => ?_
    show (update s.disk.info x.i0 _ i).status = _
    by_cases hix : i = x.i0
    · subst hix; rw [update_self]
    · rw [update_of_ne hix]
  | @kill p pc hp =>
    exact hmove s.lock (fun r x e => (e ▸ hp).of_bump) fun r x hq _ => hp.waiting.trans hq
  | irq hc | last hc _ => exact h.flight.gotoIntr (by simp) s.lock
  | intrEnter hc _ => exact h.flight.gotoIntr (by simp) _
  | more hc hu =>
    refine h.flight.gotoIntr (fun _ => ?_) s.lock
    rw [Sys.posted, entries_pop (by decide) _ hu]
    simp
  | handle hc hw hpop => exact h.flight_handle hc hw hpop
  | intrLeave hc => exact h.flight.gotoIntr (by simp) none
  | take hne => exact h.flight_take hne
  | serve _ hk => exact h.flight_serve hk
  | post hk => exact (h.flight_post hk).1

/-- No step panics. -/
theorem panic_step (hn : Next s a t) : t.panic = s.panic := by
  cases hn with
  | serve _ _ => simp only [Sys.served, transfer]; split <;> rfl
  | _ => rfl

theorem Inv.step (h : Inv s) (hn : Next s a t) : Inv t :=
  ⟨h.locks_step hn, h.owns_step hn, h.links_step hn, h.flight_step hn⟩

omit [DecidableEq B] in
theorem inv_init (h : Init s) : Inv s := by
  have hpc : ∀ p, s.pc p = .idle := h.pc
  have hlive : s.live = [] := by
    simp [Sys.live, Sys.pend, Sys.posted, h.disk, h.dev, Disk.init]
  have hidle {γ : Type} {f : PC B → Option γ} (hf : f .idle = none) {p : Fin N} {z : γ}
      (hz : f (s.pc p) = some z) : False := by
    rw [hpc, hf] at hz; cases hz
  refine ⟨fun o => ?_, ⟨fun _ _ _ _ hp => (hidle rfl hp).elim, fun _ _ hp => (hidle rfl hp).elim,
    fun _ _ _ hp => (hidle rfl hp).elim, fun _ _ _ _ _ hp => (hidle rfl hp).elim, fun i hi => ?_⟩,
    ⟨fun _ _ _ hp => (hidle rfl hp).elim, fun _ _ _ hp => (hidle rfl hp).elim⟩,
    ⟨by rw [hlive]; exact nodup_nil, by rw [hlive]; nofun, fun i _ => by rw [h.disk]; rfl,
      fun i _ => by rw [h.disk]; rfl, fun p r x hp => ?_, fun c hc => ?_⟩⟩
  · rw [h.lock]
    cases o with
    | inl p => rw [Sys.holds, hpc]; simp [PC.holds]
    | inr c => rw [Sys.holds, h.intr]; simp [Intr.holds]
  · rw [h.disk] at hi; cases hi
  · rw [hpc] at hp; cases hp
  · rw [h.intr] at hc; cases hc

theorem inv_run {h : List (Sys N M B D × Act N M B D)} (r : Run Init step h s) :
    Inv s ∧ s.panic = none := by
  refine r.inv (I := fun s => Inv s ∧ s.panic = none) (fun s hs => ⟨inv_init hs, hs.panic⟩) ?_
  intro s a t hI hst
  have hn := next_of_step hI.1.sound hst
  exact ⟨hI.1.step hn, (panic_step hn).trans hI.2⟩

end Xv6.Virtio
