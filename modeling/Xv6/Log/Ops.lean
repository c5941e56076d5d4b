/-
# `Xv6.Log.Ops` — every operation keeps the invariant and disturbs nobody

One lemma an operation: performed under its `Pre`, it keeps `Inv`, and for every
other process it is a `Rely` step.
-/
import Mathlib.Algebra.Order.BigOperators.Group.Finset
import Xv6.Log.Inv

namespace Xv6.Log

open Machine Function List

variable {N : Nat} {M : Type} {s : Sys N M} {L : Layout} {d₀ : BlockNo → Block} {p : Fin N}
  {l : List BufPtr} {i : BufPtr} {x : Buf N}

/-! ## One buffer -/

@[simp] theorem setBuf_buf (s : Sys N M) (i : BufPtr) (x : Buf N) :
    (s.setBuf i x).buf = update s.buf i x := rfl

/-- Buffers that keep their block. -/
theorem setBuf_blockno (h : i ∈ l → x.blockno = (s.buf i).blockno) :
    ∀ j ∈ l, ((s.setBuf i x).buf j).blockno = (s.buf j).blockno :=
  (forall_update_iff s.buf fun j y => j ∈ l → y.blockno = (s.buf j).blockno).mpr
    ⟨h, fun _ _ _ => rfl⟩

/-- A field that the new value of buffer `i` keeps is the same in every buffer. -/
theorem update_field {β : Type} (f : Buf N → β) {g : BufPtr → Buf N}
    (h : f x = f (g i)) (j : BufPtr) : f (update g i x j) = f (g j) := by
  by_cases hj : j = i
  · subst hj; rw [update_self, h]
  · rw [update_of_ne hj]

theorem sum_count_update (refs : Fin N → List BufPtr) (p : Fin N) (l : List BufPtr) (i : BufPtr) :
    (∑ q, (update refs p l q).count i) + (refs p).count i
      = (∑ q, (refs q).count i) + l.count i := by
  have h1 := Finset.add_sum_erase Finset.univ (fun q => (update refs p l q).count i)
    (Finset.mem_univ p)
  have h2 := Finset.add_sum_erase Finset.univ (fun q => (refs q).count i) (Finset.mem_univ p)
  have h3 : (∑ q ∈ Finset.univ.erase p, (update refs p l q).count i)
      = ∑ q ∈ Finset.univ.erase p, (refs q).count i :=
    Finset.sum_congr rfl fun q hq => by rw [update_of_ne (Finset.ne_of_mem_erase hq)]
  simp only [update_self] at h1
  omega

namespace Base

variable {i : BufPtr}

section
variable (hB : Base s)
include hB

theorem refcnt_pos (hi : i ∈ s.refs p) : (s.buf i).refcnt ≠ 0 := by
  have h1 := hB.refcnt i
  have h2 : (s.refs p).count i ≤ ∑ q, (s.refs q).count i :=
    Finset.single_le_sum (f := fun q => (s.refs q).count i) (fun _ _ => Nat.zero_le _)
      (Finset.mem_univ p)
  have h3 : 0 < (s.refs p).count i := count_pos_iff.mpr hi
  omega

theorem refcnt_pos_of_pin (hi : i ∈ s.pins) : (s.buf i).refcnt ≠ 0 := by
  have h1 := hB.refcnt i
  have h3 : 0 < s.pins.count i := count_pos_iff.mpr hi
  omega

theorem dev_of_ref (hi : i ∈ s.refs p) : (s.buf i).dev = ROOTDEV :=
  hB.dev i (.inl (hB.refcnt_pos hi))

theorem dev_of_lock (hi : (s.buf i).lock = some p) : (s.buf i).dev = ROOTDEV :=
  hB.dev_of_ref (hB.lock i p hi)

theorem dev_of_pin (hi : i ∈ s.pins) : (s.buf i).dev = ROOTDEV :=
  hB.dev i (.inl (hB.refcnt_pos_of_pin hi))

/-- One buffer changes; if it is pinned it stays the buffer of its block. -/
theorem setBuf (huniq : ∀ j ≠ i, (s.buf j).dev = ROOTDEV → (s.buf j).blockno ≠ x.blockno)
    (hrc : x.refcnt = (s.buf i).refcnt) (hdev : x.refcnt ≠ 0 ∨ x.valid = true → x.dev = ROOTDEV)
    (hlock : ∀ q, x.lock = some q → i ∈ s.refs q)
    (hpin : i ∈ s.pins → x.valid = true ∧ x.blockno = (s.buf i).blockno)
    (hcoh : x.valid = true → x.dirty = false → x.data = s.disk x.blockno ∨ i ∈ s.pins)
    (hdirty : x.dirty = true → x.valid = true ∧
      ∃ q, x.lock = some q ∧ ((s.op q).isSome = true ∨ s.owner = some q)) :
    Base (s.setBuf i x) := by
  have hn := setBuf_blockno fun hi => (hpin hi).2
  refine
    { hB with
      uniq := fun j k hj hk he => ?_
      refcnt := (forall_update_iff s.buf fun j y => y.refcnt = (∑ q, (s.refs q).count j) +
        s.pins.count j).mpr ⟨hrc.trans (hB.refcnt i), fun j _ => hB.refcnt j⟩
      dev := (forall_update_iff s.buf fun _ y => y.refcnt ≠ 0 ∨ y.valid = true →
        y.dev = ROOTDEV).mpr ⟨hdev, fun j _ => hB.dev j⟩
      lock := (forall_update_iff s.buf fun j y => ∀ q, y.lock = some q → j ∈ s.refs q).mpr
        ⟨hlock, fun j _ => hB.lock j⟩
      pinsValid := (forall_update_iff s.buf fun j y => j ∈ s.pins → y.valid = true).mpr
        ⟨fun hi => (hpin hi).1, fun j _ => hB.pinsValid j⟩
      pinsLh := fun j hj => by rw [hn j hj]; exact hB.pinsLh j hj
      pinned := fun ho => (map_congr_left hn).trans (hB.pinned ho)
      coherent := (forall_update_iff s.buf fun j y => y.valid = true → y.dirty = false →
        y.data = s.disk y.blockno ∨ j ∈ s.pins).mpr ⟨hcoh, fun j _ => hB.coherent j⟩
      dirty := (forall_update_iff s.buf fun _ y => y.dirty = true → y.valid = true ∧
        ∃ q, y.lock = some q ∧ ((s.op q).isSome = true ∨ s.owner = some q)).mpr
        ⟨hdirty, fun j _ => hB.dirty j⟩ }
  have hself : (s.setBuf i x).buf i = x := update_self ..
  have hne : ∀ j, j ≠ i → (s.setBuf i x).buf j = s.buf j := fun j hj => update_of_ne hj ..
  by_cases hji : j = i <;> by_cases hki : k = i
  · rw [hji, hki]
  · rw [hji, hself, hne k hki] at he
    rw [hne k hki] at hk
    exact absurd he.symm (huniq k hki hk)
  · rw [hki, hself, hne j hji] at he
    rw [hne j hji] at hj
    exact absurd he (huniq j hji hj)
  · rw [hne j hji] at hj he
    rw [hne k hki] at hk he
    exact hB.uniq j k hj hk he

/-- The contents, the validity or the lock of one buffer that holds a block change. -/
theorem poke (hdev : x.dev = (s.buf i).dev)
    (hno : x.blockno = (s.buf i).blockno) (hrc : x.refcnt = (s.buf i).refcnt)
    (hlock : ∀ q, x.lock = some q → i ∈ s.refs q)
    (hroot : (s.buf i).dev = ROOTDEV) (hpin : i ∈ s.pins → x.valid = true)
    (hcoh : x.valid = true → x.dirty = false → x.data = s.disk x.blockno ∨ i ∈ s.pins)
    (hdirty : x.dirty = true → x.valid = true ∧
      ∃ q, x.lock = some q ∧ ((s.op q).isSome = true ∨ s.owner = some q)) : Base (s.setBuf i x) :=
  hB.setBuf (fun j hj hdj he => hj (hB.uniq j i hdj hroot (he.trans hno))) hrc
    (fun _ => hdev.trans hroot) hlock (fun hi => ⟨hpin hi, hno⟩) hcoh hdirty

end

end Base

theorem Durable.poke (hD : Durable L d₀ s) (hno : i ∈ s.pins → x.blockno = (s.buf i).blockno)
    (hc : s.booted = true → x.valid = true → x.dirty = false → L.Home x.blockno →
      x.data = s.cur d₀ x.blockno) : Durable L d₀ (s.setBuf i x) :=
  { hD with
    cached := fun hb => (forall_update_iff s.buf fun _ y => y.valid = true → y.dirty = false →
      L.Home y.blockno → y.data = s.cur d₀ y.blockno).mpr ⟨hc hb, fun j _ => hD.cached hb j⟩
    inPlace := fun hb b hh => (hD.inPlace hb b hh).imp_left fun ⟨j, hj, hjb⟩ =>
      ⟨j, hj, (setBuf_blockno hno j hj).trans hjb⟩ }

theorem Rely.poke {q : Fin N} (hno : i ∈ s.refs q ∨ i ∈ s.pins → x.blockno = (s.buf i).blockno)
    (hx : x.lock ≠ some q) (hi : (s.buf i).lock ≠ some q) : Rely q s (s.setBuf i x) := by
  refine ⟨{ Still.refl with pinKey := fun _ => setBuf_blockno fun h => hno (.inr h) }, rfl,
    setBuf_blockno fun h => hno (.inl h), ?_, fun j hj => ?_⟩
  · exact (forall_update_iff s.buf fun j y => y.lock = some q ↔ (s.buf j).lock = some q).mpr
      ⟨by simp [hx, hi], fun _ _ => Iff.rfl⟩
  · have hji : j ≠ i := by rintro rfl; exact hi hj
    rw [setBuf_buf, update_of_ne hji]
    exact ⟨rfl, rfl, rfl⟩

section
variable {strict : Prop} {q : Fin N} {i : BufPtr}

/-! ## Sleep-locks and data -/

section
variable (h : Inv L d₀ strict s)
include h

theorem inv_acquiresleep (hi : i ∈ s.refs p) (hfree : (s.buf i).lock.isSome = false) :
    Inv L d₀ strict (s.setBuf i { s.buf i with lock := some p }) := by
  have hclean : (s.buf i).dirty = true → False := by
    intro hd
    obtain ⟨-, r, hr, -⟩ := h.base.dirty i hd
    rw [hr] at hfree; cases hfree
  refine ⟨h.base.poke rfl rfl rfl (fun r hr => ?_) (h.base.dev_of_ref hi)
    (h.base.pinsValid i) (h.base.coherent i) (fun hd => (hclean hd).elim),
    fun hs => (h.durable hs).poke (fun _ => rfl) fun hb => (h.durable hs).cached hb i⟩
  obtain rfl : p = r := Option.some.inj hr
  exact hi

section
variable (hl : (s.buf i).lock = some p)
include hl

theorem inv_releasesleep (hd : (s.buf i).dirty = false) :
    Inv L d₀ strict (s.setBuf i { s.buf i with lock := none }) := by
  refine ⟨h.base.poke rfl rfl rfl (fun r hr => by cases hr) (h.base.dev_of_lock hl)
    (h.base.pinsValid i) (h.base.coherent i) (fun hd' => ?_),
    fun hs => (h.durable hs).poke (fun _ => rfl) fun hb => (h.durable hs).cached hb i⟩
  rw [show (s.buf i).dirty = true from hd'] at hd; cases hd

/-- A pinned buffer is the valid one for its block, so what `bread` reads from
the disk is current. -/
theorem inv_diskRead (hv : (s.buf i).valid = false) : Inv L d₀ strict (s.setBuf i { s.buf i with
      data := s.disk (s.buf i).blockno, valid := true, dirty := false }) := by
  have hdev := h.base.dev_of_lock hl
  refine ⟨h.base.poke rfl rfl rfl (h.base.lock i) hdev (fun _ => rfl)
    (fun _ _ => .inl rfl) nofun,
    fun hs => (h.durable hs).poke (fun _ => rfl) fun hb _ _ hh => ?_⟩
  rcases (h.durable hs).inPlace hb _ hh with ⟨j, hj, hjb⟩ | hd
  · obtain rfl := h.base.uniq j i (h.base.dev_of_pin hj) hdev hjb
    rw [h.base.pinsValid j hj] at hv; cases hv
  · exact hd

theorem inv_setData
    (hv : (s.buf i).valid = true) (hop : (s.op p).isSome = true ∨ s.owner = some p) (d : Block) :
    Inv L d₀ strict (s.setBuf i { s.buf i with data := d, dirty := true }) := by
  refine ⟨h.base.poke rfl rfl rfl (h.base.lock i) (h.base.dev_of_lock hl)
    (fun _ => hv) (fun _ hd => by cases hd) (fun _ => ⟨hv, p, hl, hop⟩),
    fun hs => (h.durable hs).poke (fun _ => rfl) fun _ _ hd => by cases hd⟩

end

end

/-! ## A block goes to the disk -/

/-- The write itself, without the bookkeeping of a commit. -/
def Sys.flush (s : Sys N M) (i : BufPtr) : Sys N M :=
  { s.setBuf i { s.buf i with dirty := false } with
    disk := Function.update s.disk (s.buf i).blockno (s.buf i).data }

theorem Base.flush (hB : Base s) (hl : (s.buf i).lock = some p) : Base (s.flush i) := by
  have hdev := hB.dev_of_lock hl
  -- the block is written; no other buffer holds it
  have hw : Base { s with disk := update s.disk (s.buf i).blockno (s.buf i).data } := by
    refine { hB with coherent := fun j hv hc => ?_ }
    show _ = update s.disk (s.buf i).blockno (s.buf i).data (s.buf j).blockno ∨ _
    by_cases hji : j = i
    · subst hji; exact .inl (by rw [update_self])
    · rw [update_of_ne fun he => hji (hB.uniq j i (hB.dev j (.inr hv)) hdev he)]
      exact hB.coherent j hv hc
  exact hw.poke rfl rfl rfl (hB.lock i) hdev (hB.pinsValid i)
    (fun _ _ => .inl (update_self _ _ s.disk).symm) nofun

theorem diskWrite_eq (L : Layout) (i : BufPtr) (s : Sys N M) :
    diskWrite L i s = if (s.buf i).blockno = L.at 0 ∧ 0 < hdrN (s.buf i).data then
      { s.flush i with committed := s.committed ++ s.pending, pending := [] } else s.flush i := rfl

theorem Base.commit (hB : Base s) (ho : s.owner = some p) :
    Base { s with committed := s.committed ++ s.pending, pending := [] } := by
  have hop : ∀ q, s.op q = none := hB.alone (by rw [ho]; rfl)
  refine { hB with serial := fun q k hk => ?_, serials := fun u hu => ?_, closed := fun u hu => ?_ }
  · have hq : s.op q = some k := hk
    rw [hop q] at hq; cases hq
  · cases hu
  · rcases mem_append.mp hu with hu | hu
    · exact hB.closed u hu
    · exact ⟨(hB.serials u hu).1, (hB.serials u hu).2.2⟩

/-- The write, with or without the updates of the group committed by it. -/
theorem Durable.flush (hD : Durable L d₀ s) {c us : List Update}
    (hcur : c ++ us = s.committed ++ s.pending) (hsub : ∀ u ∈ us, u ∈ s.pending)
    (ho : s.owner = some p) (hon : OnDisk L (s.flush i).disk (content d₀ c))
    (hdata : s.booted = true → L.Home (s.buf i).blockno →
      (s.buf i).data = s.cur d₀ (s.buf i).blockno) (hnone : s.booted = false → us = []) :
    Durable L d₀ { s.flush i with committed := c, pending := us } := by
  have hc : content d₀ (c ++ us) = s.cur d₀ := by rw [hcur]; rfl
  refine
    { hD with
      pendLh := fun u hu => hD.pendLh u (hsub u hu), onDisk := hon, nothing := hnone
      cached := fun hb => (forall_update_iff s.buf fun _ y => y.valid = true → y.dirty = false →
        L.Home y.blockno → y.data = content d₀ (c ++ us) y.blockno).mpr ?_
      inPlace := fun hb b hh => ?_, clean := fun _ hn => ?_ }
  · rw [hc]
    exact ⟨fun _ _ => hdata hb, fun j _ => hD.cached hb j⟩
  · have hn : ∀ j, ((s.flush i).buf j).blockno = (s.buf j).blockno := update_field (·.blockno) rfl
    show (∃ j ∈ s.pins, ((s.flush i).buf j).blockno = b) ∨
      update s.disk (s.buf i).blockno (s.buf i).data b = content d₀ (c ++ us) b
    simp only [hn, hc]
    by_cases hbi : b = (s.buf i).blockno
    · subst hbi
      rw [update_self]; exact .inr (hdata hb hh)
    · rw [update_of_ne hbi]; exact hD.inPlace hb b hh
  · rw [show s.owner = none from hn] at ho; cases ho

theorem inv_diskWrite (h : Inv L d₀ strict s) (hl : (s.buf i).lock = some p)
    (ho : s.owner = some p)
    (hs : strict → OnDisk L (diskWrite L i s).disk ((diskWrite L i s).durable d₀) ∧
      (s.booted = true → L.Home (s.buf i).blockno → (s.buf i).data = s.cur d₀ (s.buf i).blockno) ∧
      (s.booted = false → s.pending = [])) :
    Inv L d₀ strict (diskWrite L i s) := by
  have hF := h.base.flush hl
  rw [diskWrite_eq] at hs ⊢
  split at hs
  · rename_i hc
    rw [if_pos hc]
    refine ⟨hF.commit ho, fun hst => ?_⟩
    obtain ⟨hon, hdata, -⟩ := hs hst
    exact (h.durable hst).flush (append_nil _) (fun u hu => by cases hu) ho hon hdata
      fun _ => rfl
  · rename_i hc
    rw [if_neg hc]
    refine ⟨hF, fun hst => ?_⟩
    obtain ⟨hon, hdata, hnone⟩ := hs hst
    exact (h.durable hst).flush rfl (fun _ => id) ho hon hdata hnone

/-! ## Reference counts

A reference taken or dropped changes one count and nothing else the invariant
looks at. -/

/-- Buffer `i` gets the count `n`, process `p` the references `l`, the log the
pins `pins` for the blocks `lh`. -/
def Sys.recount (s : Sys N M) (i : BufPtr) (n : Nat) (p : Fin N) (l pins : List BufPtr)
    (lh : List BlockNo) : Sys N M :=
  { s with
    buf := fun j => { s.buf j with refcnt := Function.update (fun j => (s.buf j).refcnt) i n j }
    refs := Function.update s.refs p l, pins := pins, lh := lh }

variable {l pins : List BufPtr} {lh : List BlockNo} {b : BlockNo} {n : Nat} {α : Type}
  {msg : String}

theorem recount_buf :
    (s.recount i n p l pins lh).buf = update s.buf i { s.buf i with refcnt := n } := by
  funext j
  by_cases hj : j = i
  · subst hj; simp [Sys.recount]
  · simp [Sys.recount, hj]

theorem recount_eq (s : Sys N M) (i : BufPtr) (n : Nat) (p : Fin N) (l : List BufPtr) :
    (s.setBuf i { s.buf i with refcnt := n }).setRefs p l = s.recount i n p l s.pins s.lh := by
  have h : (s.recount i n p l s.pins s.lh).buf = _ := recount_buf
  rw [Sys.setBuf, ← h]
  rfl

theorem Base.recount (hB : Base s) (hcount : n + (s.refs p).count i + s.pins.count i
      = (s.buf i).refcnt + l.count i + pins.count i)
    (hother : ∀ j, j ≠ i → l.count j = (s.refs p).count j ∧ pins.count j = s.pins.count j)
    (hdev : (s.buf i).dev = ROOTDEV) (hlock : ∀ j, (s.buf j).lock = some p → j ∈ l)
    (hnodup : pins.Nodup) (hpin : ∀ j ∈ pins, (s.buf j).valid = true ∧ (s.buf j).blockno ∈ lh)
    (hpinned : s.owner = none → pins.map (fun j => (s.buf j).blockno) = lh)
    (hcoh : ∀ j ∈ s.pins, j ∉ pins → (s.buf j).data = s.disk (s.buf j).blockno)
    (hon : s.booted = false → s.owner = none → l = [] ∧ pins = []) :
    Base (s.recount i n p l pins lh) :=
  { hB with
    refcnt := fun j => by
      have hsum := sum_count_update s.refs p l j
      have hold := hB.refcnt j
      show update (fun j => (s.buf j).refcnt) i n j =
        (∑ q, (update s.refs p l q).count j) + pins.count j
      by_cases hji : j = i
      · subst hji
        rw [update_self]; omega
      · rw [update_of_ne hji]
        obtain ⟨h1, h2⟩ := hother j hji
        omega
    dev := (forall_update_iff (fun j => (s.buf j).refcnt) fun j m => m ≠ 0 ∨
      (s.buf j).valid = true → (s.buf j).dev = ROOTDEV).mpr ⟨fun _ => hdev, fun j _ => hB.dev j⟩
    lock := fun j q hj => (forall_update_iff s.refs fun q l => (s.buf j).lock = some q → j ∈ l).mpr
      ⟨hlock j, fun q _ => hB.lock j q⟩ q hj
    pinsNodup := hnodup
    pinsValid := fun j hj => (hpin j hj).1
    pinsLh := fun j hj => (hpin j hj).2
    pinned := hpinned
    coherent := fun j hv hc => by
      rcases hB.coherent j hv hc with he | hp
      · exact .inl he
      · exact (Classical.em (j ∈ pins)).symm.imp_left (hcoh j hp)
    switchedOn := fun hb ho => ⟨(forall_update_iff s.refs fun _ l => l = []).mpr
      ⟨(hon hb ho).1, fun q _ => (hB.switchedOn hb ho).1 q⟩, (hon hb ho).2⟩ }

theorem Durable.recount (hD : Durable L d₀ s)
    (hgone : ∀ j ∈ s.pins, j ∉ pins → s.disk (s.buf j).blockno = s.cur d₀ (s.buf j).blockno) :
    Durable L d₀ (s.recount i n p l pins s.lh) := by
  refine { hD with inPlace := fun hb b hh => ?_ }
  rcases hD.inPlace hb b hh with ⟨j, hj, rfl⟩ | he
  · exact (Classical.em (j ∈ pins)).imp (fun hp => ⟨j, hp, rfl⟩) (hgone j hj)
  · exact .inr he

theorem Rely.recount (hq : q ≠ p) (ho : s.owner ≠ some q ∨ pins = s.pins ∧ lh = s.lh) :
    Rely q s (s.recount i n p l pins lh) :=
  { Rely.refl q s with
    refs := update_of_ne hq ..
    owned := fun h => by
      obtain ⟨h1, h2⟩ := ho.resolve_left (not_not_intro h)
      exact ⟨rfl, h2, h1, rfl, rfl, rfl⟩ }

/-- `p` takes or drops a reference to buffer `i`. -/
theorem Inv.reref (h : Inv L d₀ strict s) (hcount : n + (s.refs p).count i
      = (s.buf i).refcnt + l.count i) (hother : ∀ j, j ≠ i → l.count j = (s.refs p).count j)
    (hdev : (s.buf i).dev = ROOTDEV) (hlock : ∀ j, (s.buf j).lock = some p → j ∈ l)
    (hon : s.booted = false → s.owner = none → l = []) :
    Inv L d₀ strict (s.recount i n p l s.pins s.lh) := by
  have hB := h.base
  exact ⟨hB.recount (by omega) (fun j hj => ⟨hother j hj, rfl⟩) hdev hlock hB.pinsNodup
    (fun j hj => ⟨hB.pinsValid j hj, hB.pinsLh j hj⟩) hB.pinned (fun j hj hn => absurd hj hn)
    fun hb ho => ⟨hon hb ho, (hB.switchedOn hb ho).2⟩,
    fun hs => (h.durable hs).recount fun j hj hn => absurd hj hn⟩

/-- A reference more, for a process that may use the cache. -/
theorem Inv.ref (h : Inv L d₀ strict s) (hdev : (s.buf i).dev = ROOTDEV)
    (hon : s.booted = true ∨ s.owner = some p) :
    Inv L d₀ strict (s.recount i ((s.buf i).refcnt + 1) p (i :: s.refs p) s.pins s.lh) := by
  refine h.reref ?_ (fun j hj => count_cons_of_ne hj.symm) hdev
    (fun j hj => mem_cons_of_mem _ (h.base.lock j p hj)) fun hb ho => ?_
  · rw [count_cons_self]; omega
  · simp [hb, ho] at hon

/-- A buffer nobody refers to. -/
theorem Base.idle_buf (hB : Base s) (h0 : (s.buf i).refcnt = 0) :
    (∀ q, i ∉ s.refs q) ∧ i ∉ s.pins ∧ (s.buf i).lock = none := by
  have hrefs : ∀ q, i ∉ s.refs q := fun q hq => hB.refcnt_pos hq h0
  refine ⟨hrefs, fun hp => hB.refcnt_pos_of_pin hp h0, ?_⟩
  cases hl : (s.buf i).lock with
  | none => rfl
  | some q => exact absurd (hB.lock i q hl) (hrefs q)

/-- The buffer `bget` recycles for block `b`. -/
def Sys.recycle (s : Sys N M) (p : Fin N) (i : BufPtr) (b : BlockNo) : Sys N M :=
  (s.setBuf i { s.buf i with
    dev := ROOTDEV, blockno := b, valid := false, refcnt := 1, dirty := false }).setRefs p
      (i :: s.refs p)

/-- The buffer as the buffer of block `b`, which nobody has a reference to yet. -/
abbrev Buf.rekey (x : Buf N) (b : BlockNo) : Buf N :=
  { x with dev := ROOTDEV, blockno := b, valid := false, dirty := false }

theorem recycle_eq (h0 : (s.buf i).refcnt = 0) : s.recycle p i b =
    let t := s.setBuf i ((s.buf i).rekey b)
    t.recount i ((t.buf i).refcnt + 1) p (i :: t.refs p) t.pins t.lh := by
  rw [← recount_eq]
  simp [Sys.recycle, Sys.setRefs, Sys.setBuf, h0]

theorem Inv.recycle (h : Inv L d₀ strict s) (h0 : (s.buf i).refcnt = 0) (hmiss : s.cached b = none)
    (hon : s.booted = true ∨ s.owner = some p) : Inv L d₀ strict (s.recycle p i b) := by
  have hB := h.base
  obtain ⟨-, hpin, -⟩ := hB.idle_buf h0
  have hkey : ∀ j ≠ i, (s.buf j).dev = ROOTDEV → (s.buf j).blockno ≠ b := fun j _ hj hb => by
    have := List.find?_eq_none.mp hmiss j (hB.order.2 j)
    simp [hj, hb] at this
  have hnew : Inv L d₀ strict (s.setBuf i ((s.buf i).rekey b)) :=
    ⟨hB.setBuf hkey rfl (fun _ => rfl) (hB.lock i) (fun hi => absurd hi hpin) nofun nofun,
      fun hs => (h.durable hs).poke (fun hi => absurd hi hpin) nofun⟩
  rw [recycle_eq h0]
  exact hnew.ref (by rw [setBuf_buf, update_self]) hon

theorem Rely.recycle (hB : Base s) (h0 : (s.buf i).refcnt = 0) (hq : q ≠ p) :
    Rely q s (s.recycle p i b) := by
  obtain ⟨hrefs, hpin, hlock⟩ := hB.idle_buf h0
  have hl : (s.buf i).lock ≠ some q := by rw [hlock]; simp
  rw [recycle_eq h0]
  exact (Rely.poke (x := (s.buf i).rekey b) (fun h => absurd h (not_or.mpr ⟨hrefs q, hpin⟩)) hl
    hl).trans (.recount hq (.inr ⟨rfl, rfl⟩))

/-! ### `bget`, `brelse`, `bunpin` -/

/-- What `bget` can do. -/
theorem bget_cases (s : Sys N M) (p : Fin N) (b : BlockNo) : (∃ i, s.cached b = some i ∧ bget p b s
      = (some i, s.recount i ((s.buf i).refcnt + 1) p (i :: s.refs p) s.pins s.lh)) ∨
    (∃ i, s.cached b = none ∧ (s.buf i).refcnt = 0 ∧ bget p b s = (some i, s.recycle p i b)) ∨
    bget p b s = s.panic "bget: no buffers" := by
  unfold bget
  cases hc : s.cached b with
  | some i => exact .inl ⟨i, rfl, congrArg _ (recount_eq ..)⟩
  | none =>
    cases hu : s.unused with
    | some i =>
      refine .inr (.inl ⟨i, rfl, ?_, rfl⟩)
      have := List.find?_some hu
      simpa using this
    | none => exact .inr (.inr rfl)

/-- A cached block's buffer. -/
theorem cached_key (h : s.cached b = some i) : (s.buf i).dev = ROOTDEV ∧ (s.buf i).blockno = b := by
  have := List.find?_some h
  simpa using this

theorem Inv.panic (h : Inv L d₀ strict s) : Inv L d₀ strict (s.panic (α := α) msg).2 :=
  ⟨{ h.base with }, fun hs => { h.durable hs with }⟩

theorem Rely.panic : Rely q s (s.panic (α := α) msg).2 := { Rely.refl q s with }

theorem inv_bget (h : Inv L d₀ strict s) (hon : s.booted = true ∨ s.owner = some p) :
    Inv L d₀ strict (bget p b s).2 := by
  rcases bget_cases s p b with ⟨i, hc, he⟩ | ⟨i, hc, h0, he⟩ | he <;> rw [he]
  · exact h.ref (cached_key hc).1 hon
  · exact h.recycle h0 hc hon
  · exact h.panic

theorem rely_bget (hB : Base s) (hq : q ≠ p ∨ (bget p b s).1 = none) : Rely q s (bget p b s).2 := by
  rcases bget_cases s p b with ⟨i, -, he⟩ | ⟨i, -, h0, he⟩ | he <;> rw [he] at hq ⊢
  · exact .recount (hq.resolve_right (by simp)) (.inr ⟨rfl, rfl⟩)
  · exact .recycle hB h0 (hq.resolve_right (by simp))
  · exact Rely.panic

/-- The place of a buffer in the LRU list changes. -/
theorem Inv.reorder (h : Inv L d₀ strict s) :
    Inv L d₀ strict { s with order := i :: s.order.erase i } := by
  refine ⟨{ h.base with order := ⟨?_, fun j => ?_⟩ }, fun hs => { h.durable hs with }⟩
  · refine nodup_cons.mpr ⟨?_, h.base.order.1.erase i⟩
    exact h.base.order.1.not_mem_erase
  · by_cases hj : j = i
    · subst hj; exact mem_cons_self
    · exact mem_cons_of_mem _ ((mem_erase_of_ne hj).mpr (h.base.order.2 j))

theorem count_erase_succ (hi : i ∈ l) : (l.erase i).count i + 1 = l.count i := by
  have : 0 < l.count i := count_pos_iff.mpr hi
  rw [count_erase_self]; omega

/-- `brelse` drops the reference, and may move the buffer in the list. -/
theorem deref_cases (s : Sys N M) (p : Fin N) (i : BufPtr) :
    let t := s.recount i ((s.buf i).refcnt - 1) p ((s.refs p).erase i) s.pins s.lh
    deref p i s = t ∨ deref p i s = { t with order := i :: t.order.erase i } := by
  unfold deref
  simp only [recount_eq]
  split
  · exact .inr rfl
  · exact .inl rfl

theorem inv_deref (h : Inv L d₀ strict s) (hi : i ∈ s.refs p) (hl : (s.buf i).lock ≠ some p) :
    Inv L d₀ strict (deref p i s) := by
  have hrc : (s.buf i).refcnt ≠ 0 := h.base.refcnt_pos hi
  have hcnt := count_erase_succ hi
  have hI : Inv L d₀ strict
      (s.recount i ((s.buf i).refcnt - 1) p ((s.refs p).erase i) s.pins s.lh) := by
    refine h.reref (by omega) (fun j hj => count_erase_of_ne hj) (h.base.dev_of_ref hi)
      (fun j hj => ?_) fun hb ho => ?_
    · have hji : j ≠ i := by rintro rfl; exact hl hj
      exact (mem_erase_of_ne hji).mpr (h.base.lock j p hj)
    · rw [(h.base.switchedOn hb ho).1 p] at hi; cases hi
  rcases deref_cases s p i with he | he <;> rw [he]
  · exact hI
  · exact hI.reorder

theorem rely_deref (hq : q ≠ p) : Rely q s (deref p i s) := by
  have h : Rely q s (s.recount i ((s.buf i).refcnt - 1) p ((s.refs p).erase i) s.pins s.lh) :=
    .recount hq (.inr ⟨rfl, rfl⟩)
  rcases deref_cases s p i with he | he <;> rw [he]
  · exact h
  · exact { h with }

theorem bunpin_eq (s : Sys N M) (p : Fin N) (i : BufPtr) : bunpin i s =
    s.recount i ((s.buf i).refcnt - 1) p (s.refs p) (s.pins.erase i) s.lh := by
  have := recount_eq s i ((s.buf i).refcnt - 1) p (s.refs p)
  rw [Sys.setRefs, show (s.setBuf i _).refs = s.refs from rfl, update_eq_self] at this
  exact congrArg (fun t : Sys N M => { t with pins := s.pins.erase i }) this

theorem inv_bunpin (h : Inv L d₀ strict s) (ho : s.owner = some p) (hi : i ∈ s.pins)
    (hd : (s.buf i).data = s.disk (s.buf i).blockno)
    (hs : strict → s.disk (s.buf i).blockno = s.cur d₀ (s.buf i).blockno) :
    Inv L d₀ strict (bunpin i s) := by
  have hB := h.base
  have hrc := hB.refcnt_pos_of_pin hi
  have hcnt := count_erase_succ hi
  have hgone : ∀ j ∈ s.pins, j ∉ s.pins.erase i → j = i := fun j hj hn => by
    by_contra hji
    exact hn ((mem_erase_of_ne hji).mpr hj)
  rw [bunpin_eq s p]
  refine ⟨hB.recount (by omega) (fun j hj => ⟨rfl, count_erase_of_ne hj⟩) (hB.dev_of_pin hi)
    (hB.lock · p) (hB.pinsNodup.erase i) (fun j hj => ?_) (fun hn => ?_) (fun j hj hn => ?_)
    (fun hb hn => ?_), fun hst => (h.durable hst).recount fun j hj hn => ?_⟩
  · have hj := mem_of_mem_erase hj
    exact ⟨hB.pinsValid j hj, hB.pinsLh j hj⟩
  · rw [ho] at hn; cases hn
  · obtain rfl := hgone j hj hn; exact hd
  · rw [ho] at hn; cases hn
  · obtain rfl := hgone j hj hn; exact hs hst

theorem rely_bunpin (hq : q ≠ p) (ho : s.owner = some p) : Rely q s (bunpin i s) := by
  rw [bunpin_eq s p]
  refine Rely.recount hq (.inl ?_)
  rw [ho]; exact fun h => hq (Option.some.inj h).symm

/-! ## `log_write` -/

theorem Base.pend (hB : Base s) (hop : (s.op p).isSome = true) : Base (s.record p i) := by
  obtain ⟨k, hk⟩ := Option.isSome_iff_exists.mp hop
  obtain ⟨hlt, hcom, hlost⟩ := hB.serial p k hk
  refine { hB with serials := fun u hu => ?_ }
  rcases mem_append.mp hu with hu | hu
  · exact hB.serials u hu
  · obtain rfl := mem_singleton.mp hu
    have he : (s.update p i).op = k := by simp [Sys.update, hk]
    rw [he]
    exact ⟨hlt, fun v hv => (hcom v hv).symm, fun v hv => (hlost v hv).symm⟩

/-- A block that is in the header already is pinned in its buffer. -/
theorem Base.pin_of_mem_lh (hB : Base s) (ho : s.owner = none) (hb : b ∈ s.lh) :
    ∃ i ∈ s.pins, (s.buf i).blockno = b := by
  rw [← hB.pinned ho] at hb
  exact mem_map.mp hb

theorem cur_pend (s : Sys N M) (p : Fin N) (i : BufPtr) : (s.record p i).cur d₀
      = update (s.cur d₀) (s.buf i).blockno (s.buf i).data := by
  show content d₀ (s.committed ++ (s.pending ++ [s.update p i])) = _
  rw [← append_assoc, content_snoc]
  rfl

/-- The block is logged: it is in the header, and its buffer is pinned and no longer
dirty. -/
theorem Durable.record (hB : Base s) (hD : Durable L d₀ s) (hop : (s.op p).isSome = true)
    (hl : (s.buf i).lock = some p) (hx : x.blockno = (s.buf i).blockno ∧ x.data = (s.buf i).data)
    (hlh : s.lh ⊆ lh) (hb : (s.buf i).blockno ∈ lh) (hpins : s.pins ⊆ pins) (hi : i ∈ pins)
    (hhome : ∀ b ∈ lh, L.Home b) (hroom : lh.length ≤ LOGSIZE ∧ lh.length < L.size) :
    Durable L d₀ { (s.record p i).setBuf i x with lh := lh, pins := pins } := by
  have hn : ∀ j, (update s.buf i x j).blockno = (s.buf j).blockno := update_field (·.blockno) hx.1
  refine { hD with homeLh := hhome, lhRoom := hroom, pendLh := fun u hu => ?_,
                   cached := fun hbt => ?_, inPlace := fun hbt b hh => ?_, nothing := fun hbt => ?_ }
  · rcases mem_append.mp hu with hu | hu
    · exact hlh (hD.pendLh u hu)
    · obtain rfl := mem_singleton.mp hu; exact hb
  · show ∀ j, (update s.buf i x j).valid = true → (update s.buf i x j).dirty = false →
      L.Home (update s.buf i x j).blockno →
      (update s.buf i x j).data = (s.record p i).cur d₀ (update s.buf i x j).blockno
    rw [cur_pend]
    refine (forall_update_iff s.buf fun _ y => y.valid = true → y.dirty = false →
      L.Home y.blockno → y.data = update (s.cur d₀) (s.buf i).blockno (s.buf i).data
        y.blockno).mpr ⟨fun _ _ _ => by rw [hx.1, hx.2, update_self], fun j hji hv hd hh => ?_⟩
    rw [update_of_ne fun he => hji (hB.uniq j i (hB.dev j (.inr hv)) (hB.dev_of_lock hl) he)]
    exact hD.cached hbt j hv hd hh
  · show (∃ j ∈ pins, (update s.buf i x j).blockno = b) ∨ s.disk b = (s.record p i).cur d₀ b
    simp only [hn]
    by_cases hbi : b = (s.buf i).blockno
    · exact .inl ⟨i, hi, hbi.symm⟩
    · rw [cur_pend, update_of_ne hbi]
      exact (hD.inPlace hbt b hh).imp_left fun ⟨j, hj, hjb⟩ => ⟨j, hpins hj, hjb⟩
  · have := hB.booted_of_op hop
    rw [show s.booted = false from hbt] at this; cases this

/-- The block is in the header: `log_write` absorbs the write. -/
theorem inv_absorb (h : Inv L d₀ strict s) (hop : (s.op p).isSome = true)
    (hl : (s.buf i).lock = some p) (hb : (s.buf i).blockno ∈ s.lh) :
    Inv L d₀ strict ((s.record p i).setBuf i { s.buf i with dirty := false }) := by
  have hdev := h.base.dev_of_lock hl
  have hpin : i ∈ s.pins := by
    obtain ⟨j, hj, hjb⟩ := h.base.pin_of_mem_lh (h.base.owner_none hop) hb
    obtain rfl := h.base.uniq j i (h.base.dev_of_pin hj) hdev hjb
    exact hj
  refine ⟨(h.base.pend hop).poke rfl rfl rfl (h.base.lock i) hdev (h.base.pinsValid i)
    (fun _ _ => .inr hpin) nofun, fun hs => ?_⟩
  have hD := h.durable hs
  exact Durable.record h.base hD hop hl ⟨rfl, rfl⟩ (List.Subset.refl _) hb (List.Subset.refl _)
    hpin hD.homeLh hD.lhRoom

/-- The block is new to the header: it is added, and its buffer pinned. -/
def Sys.pin (s : Sys N M) (p : Fin N) (i : BufPtr) : Sys N M := { ((s.record p i).setBuf i
      { s.buf i with refcnt := (s.buf i).refcnt + 1, dirty := false }) with
    lh := s.lh ++ [(s.buf i).blockno], pins := s.pins ++ [i] }

theorem pin_eq (s : Sys N M) (p : Fin N) (i : BufPtr) : s.pin p i =
    let t := (s.record p i).recount i ((s.buf i).refcnt + 1) p (s.refs p) (s.pins ++ [i])
      (s.lh ++ [(s.buf i).blockno])
    t.setBuf i { t.buf i with dirty := false } := by
  simp only [Sys.setBuf, recount_buf]
  simp [Sys.pin, Sys.recount, Sys.setBuf, Sys.record]

theorem Base.pin (hB : Base s) (hop : (s.op p).isSome = true) (hl : (s.buf i).lock = some p)
    (hv : (s.buf i).valid = true) (hb : (s.buf i).blockno ∉ s.lh) : Base (s.pin p i) := by
  have hnp : i ∉ s.pins := fun hp => hb (hB.pinsLh i hp)
  have hdev := hB.dev_of_lock hl
  have hi : i ∈ s.pins ++ [i] := by simp
  have hpin : ∀ j ∈ s.pins ++ [i],
      (s.buf j).valid = true ∧ (s.buf j).blockno ∈ s.lh ++ [(s.buf i).blockno] := fun j hj => by
    rcases mem_append.mp hj with hj | hj
    · exact ⟨hB.pinsValid j hj, mem_append_left _ (hB.pinsLh j hj)⟩
    · obtain rfl := mem_singleton.mp hj
      exact ⟨hv, by simp⟩
  have hR : Base ((s.record p i).recount i ((s.buf i).refcnt + 1) p (s.refs p) (s.pins ++ [i])
      (s.lh ++ [(s.buf i).blockno])) := by
    refine (hB.pend hop).recount ?_ (fun j hj => ⟨rfl, ?_⟩) hdev (hB.lock · p) ?_ hpin
      (fun ho => ?_) (fun j hj hn => absurd (mem_append_left _ hj) hn) fun hf => ?_
    · show _ + (s.refs p).count i + s.pins.count i = _
      rw [count_append, count_singleton_self]
      show _ = (s.buf i).refcnt + _ + _
      omega
    · show _ = s.pins.count j
      rw [count_append, count_singleton]; simp [hj.symm]
    · exact nodup_append.mpr ⟨hB.pinsNodup, nodup_singleton _, by simpa [← forall_mem_ne'] using hnp⟩
    · rw [map_append, map_singleton]
      exact congrArg (· ++ _) (hB.pinned ho)
    · have := hB.booted_of_op hop
      rw [show s.booted = false from hf] at this; cases this
  rw [pin_eq]
  exact hR.poke rfl rfl rfl (hR.lock i) hdev (fun hi => (hpin i hi).1) (fun _ _ => .inr hi) nofun

theorem logWrite_cases (L : Layout) (p : Fin N) (i : BufPtr) (s : Sys N M) :
    (∃ msg, logWrite L p i s = s.panic msg) ∨
    ((s.buf i).blockno ∈ s.lh ∧ logWrite L p i s = (some (), (s.record p i).setBuf i
        { s.buf i with dirty := false })) ∨
    ((s.buf i).blockno ∉ s.lh ∧ (s.lh.length < LOGSIZE ∧ s.lh.length + 1 < L.size) ∧
      logWrite L p i s = (some (), s.pin p i)) := by
  unfold logWrite
  simp only
  split
  · exact .inl ⟨_, rfl⟩
  · rename_i hroom
    split
    · exact .inl ⟨_, rfl⟩
    · split
      · rename_i hb; exact .inr (.inl ⟨hb, rfl⟩)
      · rename_i hb
        exact .inr (.inr ⟨hb, by omega, rfl⟩)

theorem inv_logWrite (h : Inv L d₀ strict s) (hop : (s.op p).isSome = true)
    (hl : (s.buf i).lock = some p) (hv : (s.buf i).valid = true)
    (hh : strict → L.Home (s.buf i).blockno) : Inv L d₀ strict (logWrite L p i s).2 := by
  rcases logWrite_cases L p i s with ⟨msg, he⟩ | ⟨hb, he⟩ | ⟨hb, hroom, he⟩ <;> rw [he]
  · exact h.panic
  · exact inv_absorb h hop hl hb
  · refine ⟨h.base.pin hop hl hv hb, fun hs => Durable.record h.base (h.durable hs) hop hl
      ⟨rfl, rfl⟩ (subset_append_left ..) (by simp) (subset_append_left ..) (by simp)
      (fun b hb => ?_) (by simpa [Nat.succ_le_iff] using hroom)⟩
    rcases mem_append.mp hb with hb | hb
    · exact (h.durable hs).homeLh b hb
    · obtain rfl := mem_singleton.mp hb; exact hh hs

theorem rely_logWrite (hB : Base s) (hq : q ≠ p ∨ (logWrite L p i s).1 = none)
    (hop : (s.op p).isSome = true) (hl : (s.buf i).lock = some p) :
    Rely q s (logWrite L p i s).2 := by
  have ho := hB.owner_none hop
  have hno : ∀ {t : Prop}, s.owner = some q → t := fun h => by rw [ho] at h; cases h
  have hpoke : q ≠ p → ∀ x : Buf N, x.blockno = (s.buf i).blockno → x.lock = (s.buf i).lock →
      Rely q s (s.setBuf i x) := by
    intro hqp x hx hxl
    have hlq : (s.buf i).lock ≠ some q := by
      rw [hl]; exact fun h => hqp (Option.some.inj h).symm
    exact Rely.poke (fun _ => hx) (by rwa [hxl]) hlq
  rcases logWrite_cases L p i s with ⟨msg, he⟩ | ⟨hb, he⟩ | ⟨hb, hroom, he⟩ <;> rw [he] at hq ⊢
  · exact Rely.panic
  · exact { hpoke (hq.resolve_right (by simp)) { s.buf i with dirty := false } rfl rfl with
      owned := hno, pinKey := hno }
  · exact { hpoke (hq.resolve_right (by simp))
        { s.buf i with refcnt := (s.buf i).refcnt + 1, dirty := false } rfl rfl with
      owned := hno, pinKey := hno }

/-! ## Operations begin and end -/

theorem inv_beginOp (h : Inv L d₀ strict s) (hb : s.booted = true) (hop : s.op p = none)
    (hgo : ¬ (s.committing = true ∨ LOGSIZE < s.lh.length + (s.outstanding + 1) * MAXOPBLOCKS)) :
    Inv L d₀ strict { s with
      outstanding := s.outstanding + 1
      op := update s.op p (some s.nextop), nextop := s.nextop + 1 } := by
  have hB := h.base
  refine ⟨{ hB with toTurns := hB.beginOp hb hop (fun hc => hgo (.inl hc))
                    dirty := fun i hi => ?_, serial := fun q k hk => ?_,
                    serials := fun u hu => ?_, closed := fun u hu => ?_, gone := fun u hu => ?_ },
    fun hs => { h.durable hs with }⟩
  · obtain ⟨hv, q, hl, hq⟩ := hB.dirty i hi
    refine ⟨hv, q, hl, ?_⟩
    rcases hq with hq | hq
    · have hqp : q ≠ p := by rintro rfl; rw [hop] at hq; cases hq
      refine .inl ?_
      show (update s.op p (some s.nextop) q).isSome = true
      rwa [update_of_ne hqp]
    · exact .inr hq
  · by_cases hqp : q = p
    · subst hqp
      obtain rfl : s.nextop = k := by
        simpa [update_self] using hk
      refine ⟨Nat.lt_succ_self _, fun u hu => ?_, fun u hu => ?_⟩
      · exact Nat.ne_of_lt (hB.closed u hu).1
      · exact Nat.ne_of_lt (hB.gone u hu)
    · have hk' : s.op q = some k := by
        simpa [update_of_ne hqp] using hk
      obtain ⟨h1, h2, h3⟩ := hB.serial q k hk'
      exact ⟨Nat.lt_succ_of_lt h1, h2, h3⟩
  · exact ⟨Nat.lt_succ_of_lt (hB.serials u hu).1, (hB.serials u hu).2⟩
  · exact ⟨Nat.lt_succ_of_lt (hB.closed u hu).1, (hB.closed u hu).2⟩
  · exact Nat.lt_succ_of_lt (hB.gone u hu)

section
variable (h : Inv L d₀ strict s)
include h

/-- `p` leaves its operation with nothing unlogged. -/
theorem inv_leaveOp (hop : (s.op p).isSome = true) (hcl : Clean p s) : Inv L d₀ strict { s with
      outstanding := s.outstanding - 1, op := update s.op p none } := by
  have hB := h.base
  refine ⟨{ hB with toTurns := hB.leaveOp hop
                    dirty := fun i hi => ?_, serial := fun q k hk => ?_ },
    fun hs => { h.durable hs with }⟩
  · obtain ⟨hv, q, hl, hq⟩ := hB.dirty i hi
    have hqp : q ≠ p := by
      rintro rfl
      rw [hcl i hl] at hi; cases hi
    refine ⟨hv, q, hl, ?_⟩
    show (update s.op p none q).isSome = true ∨ s.owner = some q
    rwa [update_of_ne hqp]
  · have hqp : q ≠ p := by
      rintro rfl
      simp [update_self] at hk
    have hk' : s.op q = some k := by
      simpa [update_of_ne hqp] using hk
    exact hB.serial q k hk'

theorem inv_wakeupLog : Inv L d₀ strict s.wakeupLog :=
  ⟨{ h.base with }, fun hs => { h.durable hs with }⟩

/-- The last operation of the group ends: its process becomes the owner. -/
theorem inv_own (hb : s.booted = true) (hall : ∀ q, s.op q = none) (ho : s.owner = none) :
    Inv L d₀ strict { s with committing := true, owner := some p } := by
  have hB := h.base
  refine ⟨{ hB with toTurns := hB.own hb hall
                    pinned := fun hn => ?_, dirty := fun i hi => ?_, switchedOn := fun hf => ?_ },
    fun hs => { h.durable hs with clean := fun _ hn => ?_ }⟩
  · cases hn
  · obtain ⟨-, q, -, hq⟩ := hB.dirty i hi
    rcases hq with hq | hq
    · rw [hall q] at hq; cases hq
    · rw [ho] at hq; cases hq
  · rw [show s.booted = false from hf] at hb; cases hb
  · cases hn

theorem inv_endOp (hop : (s.op p).isSome = true) (hcl : Clean p s) :
    Inv L d₀ strict (endOp p s).2 := by
  have hL := inv_leaveOp h hop hcl
  unfold endOp
  split
  · exact hL.panic
  · split
    · rename_i h0
      exact inv_own hL (h.base.booted_of_op hop) (hL.base.op_of_outstanding h0)
        (h.base.owner_none hop)
    · exact inv_wakeupLog hL

/-- The end of a commit or of the recovery: nobody owns the disk. -/
theorem inv_disown {c b : Bool} {g : List (Nat × BlockNo)}
    (ho : s.owner = some p) (hlh : s.lh = []) (hpins : s.pins = []) (hcl : Clean p s) (hc : c = false)
    (hb : b = true) (hs : strict → s.pending = [] ∧ hdrN (s.disk (L.at 0)) = 0) :
    Inv L d₀ strict { s with committing := c, booted := b, owner := none, group := g } := by
  have hB := h.base
  have hop := hB.alone (by rw [ho]; rfl)
  refine ⟨{ hB with toTurns := hB.disown ho hc
                    pinned := fun _ => ?_, dirty := fun i hi => ?_, switchedOn := fun hf => ?_ },
    fun hst => ?_⟩
  · show s.pins.map _ = s.lh
    rw [hpins, hlh]; rfl
  · obtain ⟨-, q, hl, hq⟩ := hB.dirty i hi
    rcases hq with hq | hq
    · rw [hop q] at hq; cases hq
    · obtain rfl : p = q := by rw [ho] at hq; exact Option.some.inj hq
      rw [hcl i hl] at hi; cases hi
  · rw [show b = false from hf] at hb; cases hb
  · obtain ⟨hpend, hhdr⟩ := hs hst
    have hD := h.durable hst
    have hcur : s.cur d₀ = s.durable d₀ := by
      unfold Sys.cur Sys.durable
      rw [hpend, append_nil]
    have hnil : hdrBlocks (s.disk (L.at 0)) = [] := by
      simp [hdrBlocks, hhdr]
    have hplaced : ∀ c, L.Home c → s.disk c = s.cur d₀ c := by
      intro c hh
      rw [hcur]
      exact hD.onDisk.placed c hh (by rw [hnil]; exact not_mem_nil)
    refine { hD with cached := fun _ i hv hd hh => ?_, inPlace := fun _ c hh => .inr (hplaced c hh),
                     clean := fun _ _ => hhdr, nothing := fun _ => hpend }
    rcases hB.coherent i hv hd with he | hp
    · exact he.trans (hplaced _ hh)
    · rw [hpins] at hp; cases hp

theorem inv_setLh {lh : List BlockNo} (ho : s.owner = some p)
    (hpins : s.pins = []) (hs : strict → s.pending = [] ∧ (∀ b ∈ lh, L.Home b) ∧
      lh.length ≤ LOGSIZE ∧ lh.length < L.size) : Inv L d₀ strict { s with lh := lh } := by
  refine ⟨{ h.base with pinsLh := fun i hi => ?_, pinned := fun hn => ?_ }, fun hst => ?_⟩
  · rw [show s.pins = [] from hpins] at hi; cases hi
  · rw [show s.owner = some p from ho] at hn; cases hn
  · obtain ⟨hpend, hhome, hroom⟩ := hs hst
    refine { h.durable hst with homeLh := hhome, pendLh := fun u hu => ?_, lhRoom := hroom }
    rw [show s.pending = [] from hpend] at hu; cases hu

end

end

end Xv6.Log
