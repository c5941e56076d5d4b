/-
# `Xv6.Virtio.Protocol` — the driver and the device keep to the virtio protocol

`Flow` says what a step does to the two rings: nothing, or one of the five things
that move a request on.  All that is said about whole runs here comes from it.
-/
import Xv6.Virtio.Inv

namespace Xv6.Virtio

open Machine List

variable {N M : Nat} {B D : Type} {s t : Sys N M B D} {a : Act N M B D}

/-! ## What is said about a state -/

/-- The chain of descriptors a process has. -/
def PC.chain (pc : PC B) : List (Fin NUM) := (pc.idx.map Idx.toList).getD []

/-- Every descriptor is free or in the chain of one process, chains have three
descriptors, and those given to the device are linked in the table. -/
structure Accounted (s : Sys N M B D) : Prop where
  free : ∀ i, s.disk.free i = true → ∀ p, i ∉ (s.pc p).chain
  used : ∀ i, s.disk.free i = false → ∃! p, i ∈ (s.pc p).chain
  three : ∀ p, (s.pc p).chain = [] ∨ (s.pc p).chain.length = 3 ∧ (s.pc p).chain.Nodup
  linked : ∀ p r x, (s.pc p).waiting = some (r, x) → (s.pc p).chain = x.toList ∧ Linked s.disk r x

variable {x : Idx} {p : Fin N} {r : Rw B} {h g : List (Sys N M B D × Act N M B D)}

variable {pc : PC B}

theorem PC.chain_of_idx (h : pc.idx = some x) : pc.chain = x.toList := by
  rw [PC.chain, h]; rfl

theorem PC.mem_chain {i : Fin NUM} (h : i ∈ pc.chain) : ∃ x, pc.idx = some x ∧ i ∈ x.toList := by
  cases hx : pc.idx with
  | none => rw [PC.chain, hx] at h; exact absurd h not_mem_nil
  | some x => exact ⟨x, rfl, PC.chain_of_idx hx ▸ h⟩

theorem Inv.accounted (h : Inv s) : Accounted s where
  free i hi p hp := by
    obtain ⟨x, hx, hix⟩ := PC.mem_chain hp
    rw [h.owns.taken p x i hx hix] at hi; cases hi
  used i hi := by
    obtain ⟨p, x, hx, hix⟩ := h.owns.owned i hi
    refine ⟨p, show i ∈ (s.pc p).chain from PC.chain_of_idx hx ▸ hix, fun q hq => ?_⟩
    obtain ⟨y, hy, hiy⟩ := PC.mem_chain hq
    exact h.owns.disjoint q p y x i hy hx hiy hix
  three p := by
    cases hx : (s.pc p).idx with
    | none => exact .inl (by rw [PC.chain, hx]; rfl)
    | some x =>
      rw [PC.chain_of_idx hx]
      exact .inr ⟨rfl, h.owns.nodup p x hx⟩
  linked p r x hw :=
    have hl := PC.linked_of_waiting hw
    ⟨PC.chain_of_idx (PC.idx_of_linked hl).1, (h.links.linked p r x hl).linked⟩

/-! ## What is said about a step -/

/-- The buffer recorded for a head. -/
def bufOf (d : Disk B) (n : Nat) : Option B := if h : n < NUM then (d.info ⟨n, h⟩).b else none

/-- The buffer whose `disk` flag `virtio_disk_intr` clears in a step. -/
def cleared (s : Sys N M B D) : Act N M B D → Option B
  | .intr c =>
    if s.intr c = .body then bufOf s.disk (s.disk.used.ring (slot NUM s.disk.usedIdx.toNat))
    else none
  | _ => none

/-- The buffer whose request the device completes in a step. -/
def completed (s : Sys N M B D) : Act N M B D → Option B
  | .post k => s.dev.work[k]?.bind fun w => bufOf s.disk w.1
  | _ => none

/-- All buffers cleared in a run, in order. -/
def clears (h : List (Sys N M B D × Act N M B D)) : List B := h.filterMap fun x => cleared x.1 x.2

/-- All buffers completed in a run, in order. -/
def completions (h : List (Sys N M B D × Act N M B D)) : List B :=
  h.filterMap fun x => completed x.1 x.2

/-- The device completes the request that `p` waits for. -/
def Completes (s : Sys N M B D) (a : Act N M B D) (p : Fin N) (r : Rw B) (x : Idx) : Prop :=
  (s.pc p).waiting = some (r, x) ∧ ∃ k, a = .post k ∧ s.dev.work[k]? = some ((x.i0 : Nat), true)

/-- The last look of `virtio_disk_intr` at the used index. -/
def LastLook (s : Sys N M B D) (a : Act N M B D) : Prop :=
  ∃ c, a = .intr c ∧ s.intr c = .look ∧ s.disk.usedIdx = s.disk.used.idx

/-- The heads the device has taken. -/
def Sys.heads (s : Sys N M B D) : List Nat := s.dev.work.map Prod.fst

variable [DecidableEq B]

inductive Flow (s : Sys N M B D) : Act N M B D → Sys N M B D → Prop
  | same {a : Act N M B D} {t : Sys N M B D} (hav : t.disk.avail = s.disk.avail)
      (hus : t.disk.used = s.disk.used) (hidx : t.disk.usedIdx = s.disk.usedIdx)
      (hseen : t.dev.seen = s.dev.seen) (hheads : t.heads = s.heads) (hcl : cleared s a = none)
      (hco : completed s a = none) : Flow s a t
  | store {p : Fin N} {r x} (hp : s.pc p = .ring r x) :
      Flow s (.run p) ((putAvail s x).goto p (.bump r x))
  | offer {p : Fin N} {r x} (hp : s.pc p = .bump r x) :
      Flow s (.run p) ((bumpAvail s).goto p (.wait r x))
  | take (hne : s.dev.seen ≠ s.disk.avail.idx) : Flow s .take s.took
  | post {k n} (hk : s.dev.work[k]? = some (n, true)) : Flow s (.post k) (s.posts k n)
  | handle {c} {p : Fin N} {r x} (hc : s.intr c = .body)
      (hw : (s.pc p).waiting = some (r, x))
      (hpop : s.posted = (x.i0 : Nat) :: (s.handled r.b).posted) :
      Flow s (.intr c) ((s.handled r.b).gotoIntr c .look)

theorem flow_of_next (hn : Next s a t) : Flow s a t := by
  cases hn with
  | ring hp => exact .store hp
  | bump hp => exact .offer hp
  | handle hc hw hpop => exact .handle hc hw hpop
  | take hne => exact .take hne
  | serve _ hk => exact .same rfl rfl rfl rfl (served_heads hk) rfl rfl
  | post hk => exact .post hk
  | intrEnter hc _ | more hc _ | last hc _ | intrLeave hc =>
    exact .same rfl rfl rfl rfl rfl (by rw [cleared, hc]; rfl) rfl
  | _ => exact .same rfl rfl rfl rfl rfl rfl rfl

/-! ## A step and the rings -/

omit [DecidableEq B] in
/-- The room that a post needs: the head is in flight and not posted. -/
theorem Inv.posted_room (h : Inv s) {k n : Nat} {v : Bool} (hk : s.dev.work[k]? = some (n, v)) :
    s.posted.length < NUM := by
  have hpos : 0 < s.heads.length := by
    rw [Sys.heads, length_map]
    exact length_pos_of_mem (mem_of_getElem? hk)
  have := h.flight.length_live
  simp only [Sys.live, length_append] at this
  rw [Sys.heads] at hpos
  omega

/-- No entry that waits in a ring is overwritten. -/
theorem Flow.entries (h : Inv s) (hf : Flow s a t) :
    entries t.disk.avail.ring s.dev.seen s.disk.avail.idx = s.pend ∧
    entries t.disk.used.ring s.disk.usedIdx s.disk.used.idx = s.posted := by
  cases hf with
  | same hav hus _ _ _ _ _ => exact ⟨by rw [hav]; rfl, by rw [hus]; rfl⟩
  | @store p r x hp =>
    have hroom := h.pend_room (by rw [hp]; rfl) (by rw [hp]; rfl)
    exact ⟨pend_store x hroom, rfl⟩
  | offer _ | handle _ _ _ | take _ => exact ⟨rfl, rfl⟩
  | post hk => exact ⟨rfl, entries_store (by decide) _ (h.posted_room hk) _⟩

/-- A process waits as long as its flag is set. -/
theorem waiting_next (hn : Next s a t) (hw : (s.pc p).waiting = some (r, x))
    (hd : (s.buf r.b).disk = true) : (t.pc p).waiting = some (r, x) := by
  have hgoto {u : Sys N M B D} {q : Fin N} {pc : PC B} (hu : ∀ q, (s.pc q).Woke (u.pc q))
      (hq : q = p → pc.waiting = some (r, x)) : ((u.goto q pc).pc p).waiting = some (r, x) := by
    by_cases hpq : p = q
    · subst hpq; rw [goto_pc_self]; exact hq rfl
    · rwa [goto_pc_ne _ _ hpq, (hu p).waiting]
  cases hn with
  | call hp _ | enter hp _ | alloc hp _ | format hp | ring hp | bump hp | leave hp =>
    exact hgoto woke_refl (by rintro rfl; rw [hp] at hw; cases hw)
  | starve hp hF | finish hp hF => exact hgoto hF.woke (by rintro rfl; rw [hp] at hw; cases hw)
  | sleep hp _ | relock hp _ => exact hgoto woke_refl (by rintro rfl; rwa [hp] at hw)
  | done hp hd' =>
    refine hgoto woke_refl ?_
    rintro rfl
    rw [hp] at hw
    cases hw
    rw [hd] at hd'; cases hd'
  | kill hp => exact hgoto woke_refl (by rintro rfl; exact hp.waiting.trans hw)
  | handle _ _ _ => exact (PC.wakeBuf_woke _ _).waiting.trans hw
  | serve _ _ => rwa [served_pc]
  | _ => exact hw

omit [DecidableEq B] in
theorem Inv.bufOf (h : Inv s) (hw : (s.pc p).waiting = some (r, x)) :
    bufOf s.disk x.i0 = some r.b := by
  rw [Virtio.bufOf, dif_pos x.i0.isLt]
  exact (h.links.linked p r x (PC.linked_of_waiting hw)).info

/-- A request in flight keeps its buffer. -/
theorem bufOf_next (h : Inv s) (hn : Next s a t) {n : Nat} (hl : n ∈ s.live) :
    bufOf t.disk n = bufOf s.disk n := by
  obtain ⟨p, r, x, hw, rfl, hd⟩ := h.flight.live n hl
  rw [h.bufOf hw, (h.step hn).bufOf (waiting_next hn hw hd)]

/-! ## Completions and clears -/

/-- The buffers of the requests that are posted and not handled. -/
def Sys.ready (s : Sys N M B D) : List B := s.posted.filterMap (bufOf s.disk)

variable {c : Fin M}

theorem cleared_of_pop (h : Inv s) (hc : s.intr c = .body)
    (hw : (s.pc p).waiting = some (r, x)) (hpop : s.posted = (x.i0 : Nat) :: (s.handled r.b).posted) :
    cleared s (.intr c) = some r.b := by
  have hne := posted_ne_nil (by rw [hpop]; simp)
  rw [Sys.posted, entries_pop (by decide) _ hne] at hpop
  rw [cleared, if_pos hc, (List.cons.inj hpop).1, h.bufOf hw]

/-- What a step adds to the completions, it adds to the posted requests; what it
clears, it takes from there. -/
theorem ready_next (h : Inv s) (hn : Next s a t) :
    s.ready ++ (completed s a).toList = (cleared s a).toList ++ t.ready := by
  -- the requests that stay posted stand for the same buffers after the step
  have hstay : ∀ l : List Nat, (∀ n ∈ l, n ∈ s.live) →
      l.filterMap (bufOf t.disk) = l.filterMap (bufOf s.disk) := fun l hl =>
    filterMap_congr fun n hn' => bufOf_next h hn (hl n hn')
  have hposted : ∀ n ∈ s.posted, n ∈ s.live := fun n hn' => mem_append_right _ hn'
  have hsame : t.posted = s.posted → t.ready = s.ready := fun e => by
    rw [Sys.ready, e, hstay _ hposted]; rfl
  cases flow_of_next hn with
  | same _ hus hidx _ _ hcl hco =>
    have : t.posted = s.posted := by rw [Sys.posted, hus, hidx]; rfl
    rw [hcl, hco, hsame this]; simp
  | store _ | offer _ | take _ => rw [hsame rfl]; simp [completed, cleared]
  | @post k n hk =>
    have hpost := (h.flight_post hk).2
    have hn' : n ∈ s.live := mem_live_of_work (mem_of_getElem? hk)
    have hall : ∀ m ∈ s.posted ++ [n], m ∈ s.live := fun m hm => by
      rcases mem_append.mp hm with hm | hm
      · exact hposted m hm
      · obtain rfl : m = n := by simpa using hm
        exact hn'
    rw [Sys.ready, Sys.ready, hpost, hstay _ hall, filterMap_append]
    simp only [completed, cleared, hk, Option.bind_some, Option.toList_none, nil_append]
    cases hb : bufOf s.disk n <;> simp [hb]
  | @handle c p r x hc hw hpop =>
    have hcl : cleared s (.intr c) = some r.b := cleared_of_pop h hc hw hpop
    have hrest : ∀ m ∈ (s.handled r.b).posted, m ∈ s.live := fun m hm =>
      hposted m (hpop ▸ mem_cons_of_mem _ hm)
    rw [hcl]
    show s.ready ++ [] = [r.b] ++ (s.handled r.b).posted.filterMap (bufOf _)
    rw [hstay _ hrest, Sys.ready, hpop, append_nil, filterMap_cons, h.bufOf hw]
    rfl

/-- In a run, the completions are the clears and then what is still posted. -/
theorem clears_append (r : Run Init step h s) : completions h = clears h ++ s.ready := by
  induction r with
  | @init s hi =>
    have : s.posted = [] := by rw [Sys.posted, hi.disk]; exact entries_self ..
    simp [completions, clears, Sys.ready, this]
  | @step h s t a r hst ih =>
    have hI := (inv_run r).1
    have hflow := ready_next hI (next_of_step hI.sound hst)
    have e1 : completions (h ++ [(s, a)]) = completions h ++ (completed s a).toList := by
      cases hc : completed s a <;> simp [completions, hc]
    have e2 : clears (h ++ [(s, a)]) = clears h ++ (cleared s a).toList := by
      cases hc : cleared s a <;> simp [clears, hc]
    rw [e1, e2, ih, append_assoc, append_assoc, hflow]

omit [DecidableEq B] in
theorem LastLook.ready (h : LastLook s a) :
    s.ready = [] ∧ cleared s a = none ∧ completed s a = none := by
  obtain ⟨c, rfl, hc, hu⟩ := h
  refine ⟨?_, by rw [cleared, hc]; rfl, rfl⟩
  rw [Sys.ready, Sys.posted, hu, entries_self]; rfl

variable {v : Sys N M B D} {b : Act N M B D}

/-- Up to a last look all completions have been cleared. -/
theorem clears_upto (r : Run Init step (g ++ (v, b) :: h) s)
    (hv : LastLook v b) : clears g = completions g := by
  have := clears_append r.split.1
  rw [hv.ready.1, append_nil] at this
  exact this.symm

/-- Between two last looks, exactly the completions of that time are cleared. -/
theorem clears_between {h1 h2 : List (Sys N M B D × Act N M B D)} {u : Sys N M B D}
    {a : Act N M B D} (r : Run Init step (h1 ++ (u, a) :: (g ++ (v, b) :: h2)) s)
    (hu : LastLook u a) (hv : LastLook v b) : clears g = completions g := by
  have hbefore := clears_upto r hu
  have r' : Run Init step ((h1 ++ (u, a) :: g) ++ (v, b) :: h2) s := by simpa using r
  have hall := clears_upto r' hv
  obtain ⟨-, hcl, hco⟩ := hu.ready
  have e1 := filterMap_cons_none (l := g) (a := (u, a)) (f := fun x => cleared x.1 x.2) hcl
  have e2 := filterMap_cons_none (l := g) (a := (u, a)) (f := fun x => completed x.1 x.2) hco
  rw [clears, completions, filterMap_append, filterMap_append, e1, e2] at hall
  exact append_cancel_left (hall.trans (congrArg (· ++ _) hbefore.symm))

/-! ## A request and its process -/

omit [DecidableEq B] in
/-- The process that waits for a request in flight has its flag set. -/
theorem Inv.disk_of_live (h : Inv s) (hw : (s.pc p).waiting = some (r, x))
    (hl : (x.i0 : Nat) ∈ s.live) : (s.buf r.b).disk = true := by
  obtain ⟨q, r', y, hq, hxy, hd⟩ := h.flight.live _ hl
  have hpx := (PC.idx_of_linked (PC.linked_of_waiting hw)).1
  have hqy := (PC.idx_of_linked (PC.linked_of_waiting hq)).1
  obtain rfl := h.owns.disjoint p q x y x.i0 hpx hqy x.mem0 (Fin.ext hxy ▸ y.mem0)
  obtain ⟨rfl, -⟩ : r = r' ∧ x = y := by simpa using hw.symm.trans hq
  exact hd

theorem waits_step (h : Inv s) (hn : Next s a t) (hw : (s.pc p).waiting = some (r, x))
    (hm : (x.i0 : Nat) ∈ s.pend ++ s.heads) (hc : ¬ Completes s a p r x) :
    (t.pc p).waiting = some (r, x) ∧ (x.i0 : Nat) ∈ t.pend ++ t.heads := by
  have hd := h.disk_of_live hw (mem_append_left _ hm)
  refine ⟨waiting_next hn hw hd, ?_⟩
  cases flow_of_next hn with
  | same hav _ _ hseen hheads _ _ => rwa [Sys.pend, hav, hseen, hheads]
  | @store q r' y hq =>
    have hroom := h.pend_room (by rw [hq]; rfl) (by rw [hq]; rfl)
    show (x.i0 : Nat) ∈ (putAvail s y).pend ++ s.heads
    rwa [pend_store y hroom]
  | @offer q r' y hq =>
    have hroom := h.pend_room (by rw [hq]; rfl) (by rw [hq]; rfl)
    show (x.i0 : Nat) ∈ (bumpAvail s).pend ++ s.heads
    rw [pend_bump hroom]
    simp only [mem_append] at hm ⊢
    exact hm.imp_left .inl
  | take hne =>
    have hheads : s.took.heads = s.heads ++ [s.disk.avail.ring (slot NUM s.dev.seen.toNat)] := by
      simp [Sys.heads, Sys.took]
    rw [pend_took hne] at hm
    rw [hheads]
    simp only [mem_append, mem_cons, not_mem_nil, or_false] at hm ⊢
    tauto
  | @post k n hk =>
    have hne : (x.i0 : Nat) ≠ n := fun e => hc ⟨hw, k, rfl, e ▸ hk⟩
    have hheads : (n :: (s.posts k n).heads).Perm s.heads := erase_heads hk
    rcases mem_append.mp hm with hm | hm
    · exact mem_append_left _ hm
    · rcases mem_cons.mp (hheads.mem_iff.mpr hm) with e | hm
      · exact absurd e hne
      · exact mem_append_right _ hm
  | handle _ _ _ => exact hm

/-- A process waits until the device has completed its request. -/
theorem waits_until (r : Run (· = v) step g s) (hI : Inv v) {q : Rw B}
    (hw : (v.pc p).waiting = some (q, x)) (hm : (x.i0 : Nat) ∈ v.pend ++ v.heads)
    (hno : ∀ y ∈ g, ¬ Completes y.1 y.2 p q x) : (s.pc p).waiting = some (q, x) := by
  refine (r.inv_of_steps (I := fun s => Inv s ∧ (s.pc p).waiting = some (q, x) ∧
    (x.i0 : Nat) ∈ s.pend ++ s.heads) (C := fun s a => ¬ Completes s a p q x)
    (fun s hs => hs ▸ ⟨hI, hw, hm⟩) (fun s a t h hc hst => ?_) hno).2.1
  have hn := next_of_step h.1.sound hst
  exact ⟨h.1.step hn, waits_step h.1 hn h.2.1 h.2.2 hc⟩

/-! ## The protocol -/

/-- What every step does right. -/
structure StepOk (s : Sys N M B D) (a : Act N M B D) (t : Sys N M B D) : Prop where
  /-- No entry of the avail ring changes before the device has taken it. -/
  avail : entries t.disk.avail.ring s.dev.seen s.disk.avail.idx =
    entries s.disk.avail.ring s.dev.seen s.disk.avail.idx
  /-- No entry of the used ring changes before `virtio_disk_intr` has handled it. -/
  used : entries t.disk.used.ring s.disk.usedIdx s.disk.used.idx =
    entries s.disk.used.ring s.disk.usedIdx s.disk.used.idx
  /-- `virtio_disk_intr` changes the `disk` flag of the buffer it clears and no other. -/
  flags : ∀ c, a = .intr c → ∀ b,
    (t.buf b).disk = if cleared s a = some b then false else (s.buf b).disk
  /-- A completion is that of a request which its process waits for. -/
  request : ∀ b, completed s a = some b → ∃ p r x, Completes s a p r x ∧ r.b = b

/-- The flags after a step of a handler. -/
theorem flags_intr (h : Inv s) (hn : Next s (.intr c) t) (b : B) :
    (t.buf b).disk = if cleared s (.intr c) = some b then false else (s.buf b).disk := by
  have hsame {pc : Intr} (hc : s.intr c = pc) (hb : pc ≠ .body) :
      (s.buf b).disk = if cleared s (.intr c) = some b then false else (s.buf b).disk := by
    have hcl : cleared s (.intr c) = none := if_neg (by rwa [hc])
    rw [hcl]; simp
  cases hn with
  | intrEnter hc _ | more hc _ | last hc _ | intrLeave hc => exact hsame hc (by decide)
  | @handle _ p r x hc hw hpop =>
    have hcl : cleared s (.intr c) = some r.b := cleared_of_pop h hc hw hpop
    rw [hcl]
    by_cases hb : b = r.b
    · subst hb; simp [Sys.gotoIntr, Sys.handled]
    · have : ¬ (some r.b = some b) := fun e => hb (Option.some.inj e).symm
      simp [Sys.gotoIntr, Sys.handled, hb, this]

theorem stepOk_of_step (h : Inv s) (hst : step s a = some t) : StepOk s a t := by
  have hn := next_of_step h.sound hst
  have hf := flow_of_next hn
  refine ⟨(hf.entries h).1, (hf.entries h).2, ?_, fun b hb => ?_⟩
  · rintro c rfl b
    exact flags_intr h hn b
  · cases hn with
    | @post k n hk =>
      obtain ⟨p, r, x, hw, rfl, -⟩ :=
        h.flight.live n (mem_live_of_work (mem_of_getElem? hk))
      refine ⟨p, r, x, ⟨hw, k, rfl, hk⟩, ?_⟩
      rw [completed, hk, Option.bind_some, h.bufOf hw] at hb
      exact Option.some.inj hb
    | _ => cases hb

/-- In every run of the driver against the device: descriptors are accounted for and
nothing panics; no ring holds more than `NUM` entries, and none is overwritten before
it is consumed; between the last looks of two calls of `virtio_disk_intr` (or up to
the first one) the buffers cleared are those completed, in the same order; and a
process that has given its request to the device waits until the device has
completed that request. -/
theorem driver_protocol {h : List (Sys N M B D × Act N M B D)} (r : Run Init step h s) :
    Accounted s ∧ s.panic = none ∧ s.pend.length ≤ NUM ∧ s.posted.length ≤ NUM ∧
    (∀ x ∈ h, ∀ t, step x.1 x.2 = some t → StepOk x.1 x.2 t) ∧
    (∀ g v b h₂, h = g ++ (v, b) :: h₂ → LastLook v b → clears g = completions g) ∧
    (∀ h₁ u a g v b h₂, h = h₁ ++ (u, a) :: (g ++ (v, b) :: h₂) → LastLook u a → LastLook v b →
      clears g = completions g) ∧
    (∀ h₁ u p g q x, h = h₁ ++ (u, .run p) :: g → u.pc p = .bump q x →
      (s.pc p).waiting ≠ some (q, x) → ∃ y ∈ g, Completes y.1 y.2 p q x) := by
  obtain ⟨hI, hpanic⟩ := inv_run r
  have hlen := hI.flight.length_live
  simp only [Sys.live, length_append] at hlen
  refine ⟨hI.accounted, hpanic, by omega, by omega, fun x hx t hst => ?_, ?_, ?_, ?_⟩
  · obtain ⟨h', r', -⟩ := r.of_mem x hx
    exact stepOk_of_step (inv_run r').1 hst
  · rintro g v b h₂ rfl hv
    exact clears_upto r hv
  · rintro h₁ u a g v b h₂ rfl hu hv
    exact clears_between r hu hv
  · rintro h₁ u p g q x rfl hp hdone
    obtain ⟨ru, v, hv, rg⟩ := r.split
    obtain ⟨hIu, hpu⟩ := inv_run ru
    have hroom := hIu.pend_room (by rw [hp]; rfl) (by rw [hp]; rfl)
    have hv' : v = (bumpAvail u).goto p (.wait q x) := by
      rw [step, if_neg (by simp [hpu])] at hv
      simp only [runProc, hp] at hv
      exact (Option.some.inj hv).symm
    by_contra hno
    refine hdone (waits_until rg (hIu.step (next_of_step hIu.sound hv)) ?_ ?_
      fun y hy hc => hno ⟨y, hy, hc⟩)
    · rw [hv', goto_pc_self]; rfl
    · have hpend : v.pend = u.pend ++ [(x.i0 : Nat)] := by
        rw [hv', ← hIu.flight.bump p q x hp]; exact pend_bump hroom
      rw [hpend]; simp

/-- One process and one buffer. -/
def booted : Sys 1 1 Unit Unit where
  disk := Disk.init
  dev := ⟨0, []⟩
  image := fun _ => ()
  buf := fun _ => ⟨false, 0, fun _ => ()⟩
  lock := none
  pc := fun _ => .idle
  intr := fun _ => .off
  panic := none

theorem booted_init : Init booted := ⟨rfl, rfl, rfl, fun _ => rfl, fun _ => rfl, rfl⟩

/-- A block is written: the request is made, carried out, posted and handled. -/
def oneWrite : List (Act 1 1 Unit Unit) :=
  [.call 0 ⟨(), true⟩ 5 fun _ => ()] ++ List.replicate 6 (.run 0) ++
  [.take, .serve 0, .post 0, .irq 0] ++
    List.replicate 4 (.intr 0) ++ [.intr 0] ++ List.replicate 3 (.run 0)

theorem driver_protocol_write : ∃ (h : List (Sys 1 1 Unit Unit × Act 1 1 Unit Unit))
    (s : Sys 1 1 Unit Unit), Run Init step h s ∧ s.pc 0 = .leave ∧ Accounted s ∧ s.panic = none := by
  have hview : (exec step booted oneWrite).map (fun s => s.pc 0) = some .leave := by decide +kernel
  obtain ⟨s, r, hs⟩ := run_of_exec booted_init hview
  exact ⟨_, s, r, hs, (driver_protocol r).1, (driver_protocol r).2.1⟩

end Xv6.Virtio
