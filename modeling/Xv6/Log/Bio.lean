/-
# `Xv6.Log.Bio` — `bread` and `brelse`, for a process among others

`Has p hs` says which buffers process `p` has locked, and for which blocks.
`Keep p l` is what a call of `p` itself leaves alone: the buffers `l` and, if `p`
is the owner, the disk and the log.  `bread` adds a clean valid buffer to those
`p` has, `brelse` takes one away, and both keep the rest.
-/
import Xv6.Log.Rules

namespace Xv6.Log

open Machine Function List

variable {N : Nat} {M : Type} {p : Fin N}

/-- The buffers `p` has locked, each with its block. -/
structure Has (p : Fin N) (hs : List (BufPtr × BlockNo)) (s : Sys N M) : Prop where
  refs : s.refs p = hs.map Prod.fst
  nodup : (hs.map Prod.fst).Nodup
  lock : ∀ i, (s.buf i).lock = some p ↔ i ∈ hs.map Prod.fst
  key : ∀ x ∈ hs, (s.buf x.1).blockno = x.2
  valid : ∀ x ∈ hs, (s.buf x.1).valid = true

structure Keep (p : Fin N) (l : List BufPtr) (s t : Sys N M) : Prop extends Still p s t where
  bufs : ∀ i ∈ l, (s.buf i).lock = some p → (t.buf i).lock = some p ∧
    (t.buf i).blockno = (s.buf i).blockno ∧ (t.buf i).valid = (s.buf i).valid ∧
    (t.buf i).data = (s.buf i).data ∧ (t.buf i).dirty = (s.buf i).dirty

section
variable {s t u : Sys N M} {l : List BufPtr} {hs : List (BufPtr × BlockNo)} {i : BufPtr}
  {x : Buf N}

theorem Keep.trans (h1 : Keep p l s t) (h2 : Keep p l t u) : Keep p l s u where
  toStill := h1.toStill.trans h2.toStill
  bufs i hi hl := by
    obtain ⟨l1, a1, b1, c1, d1⟩ := h1.bufs i hi hl
    obtain ⟨l2, a2, b2, c2, d2⟩ := h2.bufs i hi l1
    exact ⟨l2, a2.trans a1, b2.trans b1, c2.trans c1, d2.trans d1⟩

theorem Keep.mono {l' : List BufPtr} (h : Keep p l s t) (hsub : ∀ i ∈ l', i ∈ l) : Keep p l' s t :=
  { h with bufs := fun i hi => h.bufs i (hsub i hi) }

theorem Keep.refl : Keep p l s s :=
  ⟨.refl, fun _ _ hl => ⟨hl, rfl, rfl, rfl, rfl⟩⟩

theorem Rely.keep (hB : Base s) (h : Rely p s t) (l : List BufPtr) : Keep p l s t := { h with
    bufs := fun i _ hl => by
      obtain ⟨a, b, c⟩ := h.held i hl
      exact ⟨(h.lock i).mpr hl, h.key i (hB.lock i p hl), a, b, c⟩ }

/-- A buffer not among `l` is written. -/
theorem Keep.poke (hi : i ∉ l) (hno : x.blockno = (s.buf i).blockno) :
    Keep p l s (s.setBuf i x) := by
  refine { Keep.refl (l := l) with
    pinKey := fun _ j _ => update_field (·.blockno) hno j, bufs := fun j hj hl => ?_ }
  have hji : j ≠ i := by rintro rfl; exact hi hj
  rw [setBuf_buf, update_of_ne hji]
  exact ⟨hl, rfl, rfl, rfl, rfl⟩

/-- What `p` counts on: its references, the sleep-locks it holds, the blocks of some of
its buffers, and that some of the locked ones are valid. -/
structure Holds (p : Fin N) (refs locks : List BufPtr) (keys : List (BufPtr × BlockNo))
    (valid : List BufPtr) (s : Sys N M) : Prop where
  refs : s.refs p = refs
  lock : ∀ i, (s.buf i).lock = some p ↔ i ∈ locks
  key : ∀ x ∈ keys, (s.buf x.1).blockno = x.2
  valid : ∀ i ∈ valid, (s.buf i).valid = true

section
variable {refs locks locks' valid valid' : List BufPtr} {keys : List (BufPtr × BlockNo)}

theorem Holds.rely (h : Holds p refs locks keys valid s) (hk : keys.map Prod.fst ⊆ refs)
    (hv : valid ⊆ locks) (hr : Rely p s t) : Holds p refs locks keys valid t where
  refs := hr.refs.trans h.refs
  lock i := (hr.lock i).trans (h.lock i)
  key x hx := (hr.key x.1 (h.refs ▸ hk (mem_map_of_mem hx))).trans (h.key x hx)
  valid i hi := (hr.held i ((h.lock i).mpr (hv hi))).1.trans (h.valid i hi)

/-- Buffer `i` is locked, released or read. -/
theorem Holds.poke (h : Holds p refs locks keys valid s)
    (hno : x.blockno = (s.buf i).blockno) (hx : x.lock = some p ↔ i ∈ locks')
    (hl : ∀ j, j ≠ i → (j ∈ locks' ↔ j ∈ locks)) (hxv : i ∈ valid' → x.valid = true)
    (hv : ∀ j, j ≠ i → j ∈ valid' → j ∈ valid) :
    Holds p refs locks' keys valid' (s.setBuf i x) where
  refs := h.refs
  lock := (forall_update_iff s.buf fun j y => y.lock = some p ↔ j ∈ locks').mpr
    ⟨hx, fun j hj => (h.lock j).trans (hl j hj).symm⟩
  key y hy := (update_field (·.blockno) hno y.1).trans (h.key y hy)
  valid := (forall_update_iff s.buf fun j y => j ∈ valid' → y.valid = true).mpr
    ⟨hxv, fun j hj hm => h.valid j (hv j hj hm)⟩

end

theorem has_iff : Has p hs s ↔
    (hs.map Prod.fst).Nodup ∧ Holds p (hs.map Prod.fst) (hs.map Prod.fst) hs (hs.map Prod.fst) s :=
  ⟨fun h => ⟨h.nodup, h.refs, h.lock, h.key, forall_mem_map.mpr h.valid⟩,
    fun ⟨hn, h⟩ => ⟨h.refs, hn, h.lock, h.key, forall_mem_map.mp h.valid⟩⟩

theorem Has.rely (h : Has p hs s) (hr : Rely p s t) : Has p hs t :=
  has_iff.mpr ⟨h.nodup, (has_iff.mp h).2.rely (List.Subset.refl _) (List.Subset.refl _) hr⟩

theorem Has.locked (h : Has p hs s) {x : BufPtr × BlockNo} (hx : x ∈ hs) :
    (s.buf x.1).lock = some p :=
  (h.lock x.1).mpr (mem_map_of_mem hx)

/-- Whoever has no buffers owes nothing. -/
theorem Has.clean_nil (h : Has p [] s) : Clean p s := fun i hi => by
  have := (h.lock i).mp hi
  cases this

end

section
variable {X : Ext N} {L : Layout} {d₀ : BlockNo → Block} {strict : Prop}
variable {ok : (e : X.Op) → X.Res e → Prop} {s t : Sys N X.Mem}
variable {hs : List (BufPtr × BlockNo)} {i : BufPtr} {b : BlockNo} {M : Type}

/-- What a `bget` that answers has done: a reference more than locks. -/
theorem bget_some (hB : Base s) (hH : Has p hs s)
    (h : perform L X p (.bget b) s = some (some i, t)) (l : List BufPtr) : Keep p l s t ∧
      Holds p (i :: hs.map Prod.fst) (hs.map Prod.fst) ((i, b) :: hs) (hs.map Prod.fst) t := by
  obtain ⟨-, hrefs, hlock, hkey, hvalid⟩ := has_iff.mp hH
  have hg : bget p b s = (some i, t) := Option.some.inj ((if_neg (perform_alive h)).symm.trans h)
  rcases bget_cases s p b with ⟨k, hc, he⟩ | ⟨k, hc, h0, he⟩ | he <;> rw [he] at hg
  · obtain ⟨h1, rfl⟩ := Prod.mk.inj hg
    obtain rfl : k = i := Option.some.inj h1
    exact ⟨{ Keep.refl with }, (update_self ..).trans (by rw [hrefs]),
      hlock, forall_mem_cons.mpr ⟨(cached_key hc).2, hkey⟩, hvalid⟩
  · obtain ⟨h1, rfl⟩ := Prod.mk.inj hg
    obtain rfl : k = i := Option.some.inj h1
    obtain ⟨hno, hpin, hfree⟩ := hB.idle_buf h0
    have hne : ∀ j, j ≠ k → (s.recycle p k b).buf j = s.buf j := fun j hj => update_of_ne hj ..
    have hl : ∀ j, ((s.recycle p k b).buf j).lock = (s.buf j).lock := update_field (·.lock) rfl
    have hmem : ∀ {j}, j ∈ hs.map Prod.fst → j ≠ k := by
      rintro j hj rfl
      exact hno p (hrefs ▸ hj)
    refine ⟨{ Keep.refl (l := l) with
        pinKey := fun _ j hj => by rw [hne j (by rintro rfl; exact hpin hj)]
        bufs := fun j _ hl => ?_ }, (update_self ..).trans (by rw [hrefs]), fun j => ?_,
      forall_mem_cons.mpr ⟨?_, fun x hx => ?_⟩, fun j hj => ?_⟩
    · rw [hne j (hmem ((hlock j).mp hl))]; exact ⟨hl, rfl, rfl, rfl, rfl⟩
    · rw [hl]; exact hlock j
    · show (update s.buf k _ k).blockno = b
      rw [update_self]
    · rw [hne x.1 (hmem (mem_map_of_mem hx))]; exact hkey x hx
    · rw [hne j (hmem hj)]; exact hvalid j hj
  · cases hg

/-- What an `acquiresleep` that answers has done. -/
theorem acquiresleep_some (h : perform L X p (.acquiresleep i) s = some (some (), t)) :
    (s.buf i).lock = none ∧ t = s.setBuf i { s.buf i with lock := some p } := by
  have h := (if_neg (perform_alive h)).symm.trans h
  simp only at h
  split_ifs at h with hf
  exact ⟨by simpa using hf, (Prod.mk.inj (Option.some.inj h)).2.symm⟩

/-- A free buffer is not dirty. -/
theorem Base.clean_of_free {s : Sys N M} (hB : Base s) (hfree : (s.buf i).lock = none) :
    (s.buf i).dirty = false := by
  by_contra hd
  obtain ⟨-, q, hq, -⟩ := hB.dirty i (by simpa using hd)
  rw [hfree] at hq; cases hq

/-- **`bread`**: the process has one more buffer, valid and clean. -/
theorem wp_bread {Q : BufPtr → Sys N X.Mem → Prop} (hJ : Inv L d₀ strict s)
    (hH : Has p hs s) (hon : s.booted = true ∨ s.owner = some p)
    (hQ : ∀ i t, Inv L d₀ strict t → Keep p (hs.map Prod.fst) s t → Has p ((i, b) :: hs) t →
      (t.buf i).dirty = false → Q i t) : (rules L d₀ strict ok).WP p (bread b) Q s := by
  intro s1 hJ1 hr1
  have hH1 := hH.rely hr1
  have hK1 := hr1.keep hJ.base (hs.map Prod.fst)
  refine ⟨hon.imp hr1.booted hr1.owner.mpr, fun (i : BufPtr) t1 hp1 hJt1 => ?_⟩
  obtain ⟨hK2, hW⟩ := bget_some hJ1.base hH1 (perform_of_rules hp1) (hs.map Prod.fst)
  intro s2 hJ2 hr2
  have hW2 := hW.rely (List.Subset.refl _) (List.Subset.refl _) hr2
  refine ⟨?_, fun _ t2 hp2 hJt2 => ?_⟩
  · show i ∈ s2.refs p
    rw [hW2.refs]; exact mem_cons_self
  obtain ⟨hfree, rfl⟩ := acquiresleep_some (perform_of_rules hp2)
  have hni : i ∉ hs.map Prod.fst := fun hi => nomatch hfree.symm.trans ((hW2.lock i).mpr hi)
  have hnodup : (((i, b) :: hs).map Prod.fst).Nodup := nodup_cons.mpr ⟨hni, hH.nodup⟩
  -- the sleep-lock is acquired, the data perhaps not yet read
  have hG : Holds p (i :: hs.map Prod.fst) (i :: hs.map Prod.fst) ((i, b) :: hs) (hs.map Prod.fst)
      (s2.setBuf i { s2.buf i with lock := some p }) :=
    hW2.poke rfl (by simp) (fun j hj => by simp [hj]) (fun hi => absurd hi hni) fun _ _ => id
  have hclean : ((s2.setBuf i { s2.buf i with lock := some p }).buf i).dirty = false := by
    rw [setBuf_buf, update_self]; exact hJ2.base.clean_of_free hfree
  have hK := ((hK1.trans hK2).trans (hr2.keep hJt1.base _)).trans
    (Keep.poke (x := { s2.buf i with lock := some p }) hni rfl)
  intro s3 hJ3 hr3
  refine ⟨trivial, fun v t3 hp3 hJt3 => ?_⟩
  obtain ⟨rfl, rfl⟩ := answer_of_rules hp3 fun hs => if_neg hs
  have hli := (hG.lock i).mpr mem_cons_self
  have hG3 := hG.rely (List.Subset.refl _) (subset_cons_self ..) hr3
  have hclean3 := (hr3.held i hli).2.2.trans hclean
  have hK' := hK.trans (hr3.keep hJt2.base _)
  cases hv : (t3.buf i).valid with
  | true =>
    refine hQ i t3 hJ3 hK' (has_iff.mpr ⟨hnodup, hG3.refs, hG3.lock, hG3.key, ?_⟩) hclean3
    exact forall_mem_cons.mpr ⟨hv, hG3.valid⟩
  | false =>
    intro s4 hJ4 hr4
    have hG4 := hG3.rely (List.Subset.refl _) (subset_cons_self ..) hr4
    have hl4 := (hG4.lock i).mpr mem_cons_self
    refine ⟨⟨hl4, (hr4.held i ((hG3.lock i).mpr mem_cons_self)).1.trans hv⟩,
      fun _ t4 hp4 hJt4 => ?_⟩
    obtain ⟨-, rfl⟩ := answer_of_rules hp4 fun hs => if_neg hs
    refine hQ i _ hJt4 ((hK'.trans (hr4.keep hJ3.base _)).trans (Keep.poke hni rfl))
      (has_iff.mpr ⟨hnodup, hG4.poke rfl (by simp [hl4]) (fun _ _ => Iff.rfl) (fun _ => rfl)
        fun j hj hm => (mem_cons.mp hm).resolve_left hj⟩) ?_
    rw [setBuf_buf, update_self]

/-- The buffers that remain when `i` is let go. -/
def dropBuf (i : BufPtr) (hs : List (BufPtr × BlockNo)) : List (BufPtr × BlockNo) :=
  hs.filter fun x => x.1 != i

theorem mem_dropBuf {x : BufPtr × BlockNo} : x ∈ dropBuf i hs ↔ x ∈ hs ∧ x.1 ≠ i := by
  simp [dropBuf]

theorem map_dropBuf (hn : (hs.map Prod.fst).Nodup) :
    (dropBuf i hs).map Prod.fst = (hs.map Prod.fst).erase i := by
  rw [hn.erase_eq_filter, filter_map]
  rfl

theorem Keep.deref {s : Sys N M} (l : List BufPtr) : Keep p l s (deref p i s) := by
  rcases deref_cases s p i with he | he <;> rw [he] <;> exact { Keep.refl with }

theorem Holds.deref {s : Sys N M} {refs locks valid : List BufPtr}
    (h : Holds p refs locks hs valid s) : Holds p (refs.erase i) locks hs valid (deref p i s) := by
  have hrefs : update s.refs p ((s.refs p).erase i) p = refs.erase i := by
    rw [update_self, h.refs]
  rcases deref_cases s p i with he | he <;> rw [he] <;> exact ⟨hrefs, h.lock, h.key, h.valid⟩

/-- **`brelse`** of a clean buffer: the others stay as they are. -/
theorem wp_brelse {Q : Unit → Sys N X.Mem → Prop} (hJ : Inv L d₀ strict s) (hH : Has p hs s)
    (hi : i ∈ hs.map Prod.fst) (hd : (s.buf i).dirty = false)
    (hQ : ∀ t, Inv L d₀ strict t → Keep p ((dropBuf i hs).map Prod.fst) s t →
      Has p (dropBuf i hs) t → Q () t) :
    (rules L d₀ strict ok).WP p (brelse i) Q s := by
  intro s1 hJ1 hr1
  have hH1 := hH.rely hr1
  have hl : (s.buf i).lock = some p := (hH.lock i).mpr hi
  have hl1 : (s1.buf i).lock = some p := (hH1.lock i).mpr hi
  have hni : i ∉ (dropBuf i hs).map Prod.fst := by
    rw [map_dropBuf hH.nodup]; exact hH.nodup.not_mem_erase
  refine ⟨⟨hl1, (hr1.held i hl).2.2.trans hd⟩, fun _ t1 hp1 hJt1 => ?_⟩
  obtain ⟨-, rfl⟩ := answer_of_rules hp1 fun hs => (if_neg hs).trans (if_pos hl1)
  -- the sleep-lock is released, the reference not yet dropped
  have hD : Holds p (hs.map Prod.fst) ((dropBuf i hs).map Prod.fst) (dropBuf i hs)
      ((dropBuf i hs).map Prod.fst) (s1.setBuf i { s1.buf i with lock := none }) := by
    have hsub : ∀ j, j ≠ i → (j ∈ (dropBuf i hs).map Prod.fst ↔ j ∈ hs.map Prod.fst) :=
      fun j hj => by rw [map_dropBuf hH.nodup, mem_erase_of_ne hj]
    have hH' : Holds p (hs.map Prod.fst) (hs.map Prod.fst) (dropBuf i hs) (hs.map Prod.fst) s1 :=
      { (has_iff.mp hH1).2 with key := fun x hx => hH1.key x (mem_dropBuf.mp hx).1 }
    exact hH'.poke rfl (by simp [hni]) hsub (fun hi => absurd hi hni) fun j hj => (hsub j hj).mp
  have hK : Keep p ((dropBuf i hs).map Prod.fst) s (s1.setBuf i { s1.buf i with lock := none }) :=
    (hr1.keep hJ.base _).trans (Keep.poke hni rfl)
  intro s2 hJ2 hr2
  have hD2 := hD.rely (fun j hj => mem_of_mem_erase (map_dropBuf hH.nodup ▸ hj))
    (List.Subset.refl _) hr2
  refine ⟨⟨by rwa [hD2.refs], fun he => hni ((hD2.lock i).mp he)⟩, fun _ t2 hp2 hJt2 => ?_⟩
  obtain ⟨-, rfl⟩ := answer_of_rules hp2 fun hs => if_neg hs
  refine hQ _ hJt2 ((hK.trans (hr2.keep hJt1.base _)).trans (Keep.deref _)) (has_iff.mpr ⟨?_, ?_⟩)
  · rw [map_dropBuf hH.nodup]; exact hH.nodup.erase i
  · have := hD2.deref (i := i)
    rwa [← map_dropBuf hH.nodup] at this

end

end Xv6.Log
