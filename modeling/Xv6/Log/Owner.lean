/-
# `Xv6.Log.Owner` — what the process that commits sees

While a process runs `commit`, or the recovery at boot, nobody else writes the
disk or the log.  Its `View` of them changes by its own operations only, so the
code of `log.c` can be followed step by step as if it ran alone; the lemmas here
say what each step does to the view.
-/
import Xv6.Log.Bio
import Xv6.Log.Disk

namespace Xv6.Log

open Machine Function List

variable {N : Nat} {M : Type} {p : Fin N}

structure View where
  disk : BlockNo → Block
  lh : List BlockNo
  /-- The blocks whose buffers are pinned. -/
  pinned : List BlockNo
  pending : List Update
  committed : List Update
  booted : Bool

def Sys.view (s : Sys N M) : View where
  disk := s.disk
  lh := s.lh
  pinned := s.pins.map fun i => (s.buf i).blockno
  pending := s.pending
  committed := s.committed
  booted := s.booted

namespace View

def cur (v : View) (d₀ : BlockNo → Block) : BlockNo → Block := content d₀ (v.committed ++ v.pending)

def durable (v : View) (d₀ : BlockNo → Block) : BlockNo → Block := content d₀ v.committed

/-- Block `b` is written with contents `x`. -/
def write (L : Layout) (v : View) (b : BlockNo) (x : Block) : View :=
  if b = L.at 0 ∧ 0 < hdrN x then
    { v with
      disk := update v.disk b x, committed := v.committed ++ v.pending, pending := [] }
  else { v with disk := update v.disk b x }

end View

/-- `p` commits, has the buffers `hs`, and sees `v`. -/
structure Owns (L : Layout) (d₀ : BlockNo → Block) (strict : Prop) (p : Fin N)
    (hs : List (BufPtr × BlockNo)) (v : View) (s : Sys N M) : Prop where
  inv : Inv L d₀ strict s
  owner : s.owner = some p
  has : Has p hs s
  view : s.view = v

section
variable {L : Layout} {d₀ : BlockNo → Block} {strict : Prop} {s t : Sys N M}
  {hs hs' : List (BufPtr × BlockNo)} {v : View} {l : List BufPtr}

theorem Keep.view (h : Keep p l s t) (ho : s.owner = some p) : t.view = s.view := by
  obtain ⟨hd, hl, hp, hpe, hc, hb⟩ := h.owned ho
  have hmap : t.pins.map (fun i => (t.buf i).blockno) = s.pins.map fun i => (s.buf i).blockno := by
    rw [hp]
    exact map_congr_left fun i hi => h.pinKey ho i hi
  simp only [Sys.view, hd, hl, hmap, hpe, hc, hb]

theorem Owns.keep (h : Owns L d₀ strict p hs v s) (hJ : Inv L d₀ strict t) (hk : Keep p l s t)
    (hh : Has p hs' t) : Owns L d₀ strict p hs' v t :=
  ⟨hJ, hk.owner.mpr h.owner, hh, (hk.view h.owner).trans h.view⟩

theorem Owns.rely (h : Owns L d₀ strict p hs v s) (hJ : Inv L d₀ strict t) (hr : Rely p s t) :
    Owns L d₀ strict p hs v t :=
  h.keep hJ (hr.keep h.inv.base []) (h.has.rely hr)

theorem Owns.pins_nil (hO : Owns L d₀ strict p hs v s) (hpin : v.pinned = []) : s.pins = [] := by
  rw [← hO.view] at hpin
  exact map_eq_nil_iff.mp hpin

end

section
variable {X : Ext N} {L : Layout} {d₀ : BlockNo → Block} {strict : Prop}
variable {ok : (e : X.Op) → X.Res e → Prop} {s : Sys N X.Mem}
variable {hs : List (BufPtr × BlockNo)} {i : BufPtr} {b : BlockNo} {v : View}
  {Q : Unit → Sys N X.Mem → Prop} {bs : List BlockNo}

/-! ## Buffers, for anybody -/

theorem wp_getData {Q : Block → Sys N X.Mem → Prop} (hJ : Inv L d₀ strict s) (hH : Has p hs s)
    (hi : i ∈ hs.map Prod.fst)
    (hQ : ∀ t, Inv L d₀ strict t → Keep p (hs.map Prod.fst) s t → Has p hs t →
      Q (s.buf i).data t) :
    (rules L d₀ strict ok).WP p (Prim.getData i) Q s := by
  intro s1 hJ1 hr
  refine ⟨trivial, fun d t hp hJt => ?_⟩
  obtain ⟨rfl, rfl⟩ := answer_of_rules hp fun hs => if_neg hs
  rw [(hr.held i ((hH.lock i).mpr hi)).2.1]
  exact hQ t hJ1 (hr.keep hJ.base _) (hH.rely hr)

theorem Has.poke {s : Sys N M} (hH : Has p hs s) {x : Buf N} (hlock : x.lock = (s.buf i).lock)
    (hno : x.blockno = (s.buf i).blockno) (hv : (s.buf i).valid = true → x.valid = true) :
    Has p hs (s.setBuf i x) := by
  obtain ⟨hn, h⟩ := has_iff.mp hH
  exact has_iff.mpr ⟨hn, h.poke hno (hlock ▸ h.lock i) (fun _ _ => Iff.rfl)
    (fun hi => hv (h.valid i hi)) fun _ _ => id⟩

theorem not_mem_dropBuf (hH : Has p hs s) : i ∉ (dropBuf i hs).map Prod.fst := by
  rw [map_dropBuf hH.nodup]; exact hH.nodup.not_mem_erase

theorem wp_setData {d : Block} (hJ : Inv L d₀ strict s)
    (hH : Has p hs s) (hi : (i, b) ∈ hs) (hw : (s.op p).isSome = true ∨ s.owner = some p)
    (hQ : ∀ t, Inv L d₀ strict t → Keep p ((dropBuf i hs).map Prod.fst) s t → Has p hs t →
      (t.buf i).data = d → (t.buf i).dirty = true → Q () t) :
    (rules L d₀ strict ok).WP p (Prim.setData i d) Q s := by
  intro s1 hJ1 hr
  have hH1 := hH.rely hr
  refine ⟨⟨hH1.locked hi, hH1.valid _ hi, ?_⟩, fun _ t hp hJt => ?_⟩
  · rwa [hr.op, hr.owner]
  obtain ⟨-, rfl⟩ := answer_of_rules hp fun hs => if_neg hs
  refine hQ _ hJt ((hr.keep hJ.base _).trans (Keep.poke (not_mem_dropBuf hH) rfl))
    (hH1.poke rfl rfl id) ?_ ?_ <;> rw [setBuf_buf, update_self]

/-- `memmove` from one buffer to another. -/
theorem wp_copyData {src : BufPtr} (hJ : Inv L d₀ strict s)
    (hH : Has p hs s) (hi : (i, b) ∈ hs) (hsrc : src ∈ hs.map Prod.fst)
    (hw : (s.op p).isSome = true ∨ s.owner = some p)
    (hQ : ∀ t, Inv L d₀ strict t → Keep p ((dropBuf i hs).map Prod.fst) s t → Has p hs t →
      (t.buf i).data = (s.buf src).data → (t.buf i).dirty = true → Q () t) :
    (rules L d₀ strict ok).WP p (copyData i src) Q s := by
  refine Rules.WP.bind (wp_getData hJ hH hsrc fun t1 hJ1 hK1 hH1 => ?_)
  refine wp_setData hJ1 hH1 hi ?_ fun t2 hJ2 hK2 hH2 hd hdt => ?_
  · rwa [hK1.op, hK1.owner]
  · refine hQ t2 hJ2 ((hK1.mono fun j hj => ?_).trans hK2) hH2 hd hdt
    rw [map_dropBuf hH.nodup] at hj
    exact mem_of_mem_erase hj

/-! ## The owner's steps -/

theorem view_flush (s : Sys N M) (i : BufPtr) :
    (s.flush i).view
      = { s.view with disk := update s.disk (s.buf i).blockno (s.buf i).data } := by
  have hn : ∀ j, ((s.flush i).buf j).blockno = (s.buf j).blockno := update_field (·.blockno) rfl
  unfold Sys.view
  simp only [hn]
  rfl

theorem view_diskWrite (L : Layout) (s : Sys N M) (i : BufPtr) :
    (diskWrite L i s).view = s.view.write L (s.buf i).blockno (s.buf i).data := by
  rw [diskWrite_eq]
  unfold View.write
  split
  · have := view_flush s i
    simp only [Sys.view, View.mk.injEq] at this ⊢
    exact ⟨this.1, this.2.1, this.2.2.1, trivial, trivial, this.2.2.2.2.2⟩
  · exact view_flush s i

theorem Has.diskWrite {s : Sys N M} (hH : Has p hs s) : Has p hs (diskWrite L i s) := by
  have h : Has p hs (s.setBuf i { s.buf i with dirty := false }) := hH.poke rfl rfl id
  rw [diskWrite_eq]
  split <;> exact { h with }

/-- **`bwrite`**: one block of the disk changes. -/
theorem wp_bwrite {x : Block} (hO : Owns L d₀ strict p hs v s) (hi : (i, b) ∈ hs)
    (hx : (s.buf i).data = x)
    (hs' : strict → OnDisk L (v.write L b x).disk ((v.write L b x).durable d₀) ∧
      (v.booted = true → L.Home b → x = v.cur d₀ b) ∧ (v.booted = false → v.pending = []))
    (hQ : ∀ t, Owns L d₀ strict p hs (v.write L b x) t → (t.buf i).data = x →
      (t.buf i).dirty = false → (∀ j ∈ hs.map Prod.fst, j ≠ i → (t.buf j).data = (s.buf j).data ∧
        (t.buf j).dirty = (s.buf j).dirty) → Q () t) :
    (rules L d₀ strict ok).WP p (bwrite i) Q s := by
  intro s1 hJ1 hr
  have hO1 := hO.rely hJ1 hr
  have hl := hO.has.locked hi
  have hl1 := hO1.has.locked hi
  have hb : (s1.buf i).blockno = b := hO1.has.key _ hi
  have hd : (s1.buf i).data = x := (hr.held i hl).2.1.trans hx
  have hv : (diskWrite L i s1).view = v.write L b x := by
    rw [view_diskWrite, hO1.view, hb, hd]
  refine ⟨⟨hl1, hO1.has.valid _ hi, hO1.owner, fun hst => ?_⟩, fun _ t hp hJt => ?_⟩
  · obtain ⟨h1, h2⟩ := hs' hst
    rw [← hv] at h1
    rw [← hO1.view, ← hb, ← hd] at h2
    exact ⟨h1, h2⟩
  · obtain ⟨-, rfl⟩ := answer_of_rules hp fun hs => (if_neg hs).trans (if_pos hl1)
    have hbuf : (diskWrite L i s1).buf
        = update s1.buf i { s1.buf i with dirty := false } := by
      rw [diskWrite_eq]; split <;> rfl
    have how : (diskWrite L i s1).owner = s1.owner := by rw [diskWrite_eq]; split <;> rfl
    refine hQ _ ⟨hJt, how.trans hO1.owner, hO1.has.diskWrite, hv⟩ ?_ ?_ fun j hj hji => ?_
    · rwa [hbuf, update_self]
    · rw [hbuf, update_self]
    · rw [hbuf, update_of_ne hji]
      exact (hr.held j ((hO.has.lock j).mpr hj)).2

theorem Has.bunpin {s : Sys N M} (hH : Has p hs s) : Has p hs (bunpin i s) := by
  have h : Has p hs (s.setBuf i { s.buf i with refcnt := (s.buf i).refcnt - 1 }) :=
    hH.poke rfl rfl id
  exact { h with }

/-- The buffer of the first block that is still pinned. -/
theorem Owns.pinned_head {s : Sys N M} (hO : Owns L d₀ strict p hs v s)
    (hi : (i, b) ∈ hs) (hp : v.pinned = b :: bs) :
    ∃ l, s.pins = i :: l ∧ l.map (fun j => (s.buf j).blockno) = bs := by
  have hv : s.pins.map (fun j => (s.buf j).blockno) = b :: bs := by
    rw [← hp, ← hO.view]; rfl
  cases hpins : s.pins with
  | nil => rw [hpins] at hv; cases hv
  | cons j l =>
    rw [hpins, map_cons, List.cons.injEq] at hv
    have hj : (s.buf j).dev = ROOTDEV := hO.inv.base.dev_of_pin (by rw [hpins]; exact mem_cons_self)
    obtain rfl := hO.inv.base.uniq j i hj (hO.inv.base.dev_of_lock (hO.has.locked hi))
      (hv.1.trans (hO.has.key _ hi).symm)
    exact ⟨l, rfl, hv.2⟩

theorem wp_bunpin (hO : Owns L d₀ strict p hs v s) (hi : (i, b) ∈ hs) (hp : v.pinned = b :: bs)
    (hdt : (s.buf i).dirty = false) (hd : (s.buf i).data = v.disk b)
    (hs' : strict → v.disk b = v.cur d₀ b)
    (hQ : ∀ t, Owns L d₀ strict p hs { v with pinned := bs } t →
      (∀ j ∈ hs.map Prod.fst, (t.buf j).data = (s.buf j).data ∧
        (t.buf j).dirty = (s.buf j).dirty) → Q () t) :
    (rules L d₀ strict ok).WP p (Prim.bunpin i) Q s := by
  intro s1 hJ1 hr
  have hO1 := hO.rely hJ1 hr
  have hl := hO.has.locked hi
  have hb : (s1.buf i).blockno = b := hO1.has.key _ hi
  obtain ⟨l, hpins, hmap⟩ := hO1.pinned_head hi hp
  have hdisk : s1.disk = v.disk := by rw [← hO1.view]; rfl
  refine ⟨⟨hO1.owner, by rw [hpins]; exact mem_cons_self, hO1.has.locked hi,
    (hr.held i hl).2.2.trans hdt, ?_, fun hst => ?_⟩, fun _ t hp' hJt => ?_⟩
  · rw [(hr.held i hl).2.1, hd, hb, hdisk]
  · rw [hb, hdisk, hs' hst, ← hO1.view]; rfl
  · obtain ⟨-, rfl⟩ := answer_of_rules hp' fun hs => if_neg hs
    have hpin : (s1.pins.erase i).map (fun j => (s1.buf j).blockno) = bs := by
      rw [hpins, erase_cons_head, hmap]
    have hH := hO1.has.bunpin (i := i)
    rw [bunpin_eq s1 p] at hJt hH ⊢
    refine hQ _ ⟨hJt, hO1.owner, hH, ?_⟩ fun j hj => (hr.held j ((hO.has.lock j).mpr hj)).2
    rw [← hO1.view, ← hpin]; rfl

theorem wp_getLh {Q : List BlockNo → Sys N X.Mem → Prop} (hO : Owns L d₀ strict p hs v s)
    (hQ : ∀ t, Owns L d₀ strict p hs v t → Keep p (hs.map Prod.fst) s t → Q v.lh t) :
    (rules L d₀ strict ok).WP p Prim.getLh Q s := by
  intro s1 hJ1 hr
  refine ⟨trivial, fun d t hp hJt => ?_⟩
  have hO1 := hO.rely hJ1 hr
  obtain ⟨rfl, rfl⟩ := answer_of_rules hp fun hs => if_neg hs
  have := hQ t hO1 (hr.keep hO.inv.base _)
  rwa [← hO1.view] at this

theorem wp_setLh {lh : List BlockNo} (hO : Owns L d₀ strict p hs v s) (hp : v.pinned = [])
    (hb : v.booted = true → lh = [])
    (hs' : strict → v.pending = [] ∧ (∀ b ∈ lh, L.Home b) ∧ lh.length ≤ LOGSIZE ∧
      lh.length < L.size) (hQ : ∀ t, Owns L d₀ strict p hs { v with lh := lh } t →
      (∀ j ∈ hs.map Prod.fst, (t.buf j).data = (s.buf j).data ∧
        (t.buf j).dirty = (s.buf j).dirty) → Q () t) :
    (rules L d₀ strict ok).WP p (Prim.setLh lh) Q s := by
  intro s1 hJ1 hr
  have hO1 := hO.rely hJ1 hr
  have hpins := hO1.pins_nil hp
  obtain rfl := hO1.view
  refine ⟨⟨hO1.owner, hpins, hb, hs'⟩, fun _ t hp' hJt => ?_⟩
  obtain ⟨-, rfl⟩ := answer_of_rules hp' fun hs => if_neg hs
  exact hQ _ ⟨hJt, hO1.owner, { hO1.has with }, rfl⟩ fun j hj =>
    (hr.held j ((hO.has.lock j).mpr hj)).2

end

end Xv6.Log
