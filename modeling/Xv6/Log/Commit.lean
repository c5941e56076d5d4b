/-
# `Xv6.Log.Commit` — `write_log`, `write_head`, `install_trans`, `commit` and recovery

The owner's code, followed on its view.  `writeLog` puts the current contents of
the logged blocks into the log area, `writeHead` makes them count, `installTrans`
copies them home, and the second `writeHead` erases the log; between any two of
these block writes the disk stands for the committed contents (`OnDisk`).
-/
import Xv6.Log.Owner

namespace Xv6.Log

open Machine Function List

variable {N : Nat} {p : Fin N} {X : Ext N} {L : Layout} {d₀ : BlockNo → Block} {strict : Prop}
variable {ok : (e : X.Op) → X.Res e → Prop} {s : Sys N X.Mem}
variable {hs : List (BufPtr × BlockNo)} {i : BufPtr} {b : BlockNo} {v : View} {M : Type}
  {Q : Unit → Sys N X.Mem → Prop} {tail : Nat} {m : Prog (sig X) Unit} {bs : List BlockNo}
  {recovering : Bool}

/-! ## The owner's `bread` and `brelse` -/

theorem Owns.on {s : Sys N M} (hO : Owns L d₀ strict p hs v s) :
    s.booted = true ∨ s.owner = some p := .inr hO.owner

theorem own_bread {Q : BufPtr → Sys N X.Mem → Prop} (hO : Owns L d₀ strict p hs v s)
    (hQ : ∀ i t, Owns L d₀ strict p ((i, b) :: hs) v t →
      Keep p (hs.map Prod.fst) s t → (t.buf i).dirty = false → Q i t) :
    (rules L d₀ strict ok).WP p (bread b) Q s :=
  wp_bread hO.inv hO.has hO.on fun i t hJt hK hH hd => hQ i t (hO.keep hJt hK hH) hK hd

theorem own_brelse (hO : Owns L d₀ strict p hs v s)
    (hi : i ∈ hs.map Prod.fst) (hd : (s.buf i).dirty = false)
    (hQ : ∀ t, Owns L d₀ strict p (dropBuf i hs) v t →
      Keep p ((dropBuf i hs).map Prod.fst) s t → Q () t) :
    (rules L d₀ strict ok).WP p (brelse i) Q s :=
  wp_brelse hO.inv hO.has hi hd fun t hJt hK hH => hQ t (hO.keep hJt hK hH) hK

section
variable {i j : BufPtr} {a : BlockNo} {m : Prog (sig X) Unit} {Q : Unit → Sys N X.Mem → Prop}

/-- Two buffers, clean both. -/
theorem own_bread_two {m : BufPtr → BufPtr → Prog (sig X) Unit} (hO : Owns L d₀ strict p [] v s)
    (hQ : ∀ i j t, Owns L d₀ strict p [(j, b), (i, a)] v t → j ≠ i →
      (t.buf i).dirty = false → (t.buf j).dirty = false → (rules L d₀ strict ok).WP p (m i j) Q t) :
    (rules L d₀ strict ok).WP p ((bread a).bind fun i => (bread b).bind fun j => m i j) Q s := by
  refine Rules.WP.bind (own_bread hO fun i s1 hO1 _ hd1 => ?_)
  refine Rules.WP.bind (own_bread hO1 fun j s2 hO2 hK2 hd2 => ?_)
  have hne : j ≠ i := by
    have := hO2.has.nodup
    simp only [map_cons, map_nil, nodup_cons, mem_singleton] at this
    exact this.1
  have hl : (s1.buf i).lock = some p := hO1.has.locked (x := (i, a)) (by simp)
  exact hQ i j s2 hO2 hne ((hK2.bufs i (by simp) hl).2.2.2.2.trans hd1) hd2

/-- Copying one buffer to another, and writing that. -/
theorem own_copyWrite (hO : Owns L d₀ strict p hs v s) (hi : (i, b) ∈ hs)
    (hj : (j, a) ∈ hs) (hne : j ≠ i) (hd : (s.buf j).dirty = false)
    (hw : strict → OnDisk L (v.write L b (s.buf j).data).disk
        ((v.write L b (s.buf j).data).durable d₀) ∧
      (v.booted = true → L.Home b → (s.buf j).data = v.cur d₀ b) ∧
      (v.booted = false → v.pending = []))
    (hQ : ∀ t, Owns L d₀ strict p hs (v.write L b (s.buf j).data) t →
      (t.buf i).data = (s.buf j).data → (t.buf i).dirty = false → (t.buf j).dirty = false →
      (rules L d₀ strict ok).WP p m Q t) :
    (rules L d₀ strict ok).WP p ((copyData i j).bind fun _ => (bwrite i).bind fun _ => m) Q s := by
  refine Rules.WP.bind (wp_copyData hO.inv hO.has hi (mem_map_of_mem hj) (.inr hO.owner)
    fun s1 hJ1 hK1 hH1 hdata1 _ => ?_)
  have hj1 : (s1.buf j).dirty = false :=
    (hK1.bufs j (mem_map_of_mem (mem_dropBuf.mpr ⟨hj, hne⟩)) (hO.has.locked hj)).2.2.2.2.trans hd
  refine Rules.WP.bind (wp_bwrite (hO.keep hJ1 hK1 hH1) hi hdata1 hw
    fun t hOt hdata hdi hrest => hQ t hOt hdata hdi ?_)
  exact (hrest j (mem_map_of_mem hj) hne).2.trans hj1

/-- Letting the last two buffers go. -/
theorem own_brelse_two (hO : Owns L d₀ strict p hs v s) (hi : i ∈ hs.map Prod.fst)
    (hdrop : dropBuf i hs = [(j, a)]) (hdi : (s.buf i).dirty = false) (hdj : (s.buf j).dirty = false)
    (hQ : ∀ t, Owns L d₀ strict p [] v t → (rules L d₀ strict ok).WP p m Q t) :
    (rules L d₀ strict ok).WP p ((brelse i).bind fun _ => (brelse j).bind fun _ => m) Q s := by
  have hj : (j, a) ∈ dropBuf i hs := by rw [hdrop]; exact mem_singleton_self _
  have hl : (s.buf j).lock = some p := hO.has.locked (mem_dropBuf.mp hj).1
  refine Rules.WP.bind (own_brelse hO hi hdi fun t hOt hK => ?_)
  rw [hdrop] at hOt hK
  refine Rules.WP.bind (own_brelse hOt (by simp) ?_ fun u hOu _ => hQ u ?_)
  · exact (hK.bufs j (by simp) hl).2.2.2.2.trans hdj
  · simpa [dropBuf] using hOu

end

theorem Owns.onDisk (hO : Owns L d₀ strict p hs v s) (hst : strict) :
    OnDisk L v.disk (v.durable d₀) := by
  rw [← hO.view]
  exact (hO.inv.durable hst).onDisk

theorem View.content_congr {v' : View} (h : v'.pending = v.pending ∧ v'.committed = v.committed) :
    v'.cur d₀ = v.cur d₀ ∧ v'.durable d₀ = v.durable d₀ := by
  rw [View.cur, View.durable, h.1, h.2]
  exact ⟨rfl, rfl⟩

theorem Layout.at_succ_ne (h : tail + 1 < L.size) : L.at (tail + 1) ≠ L.at 0 :=
  fun he => absurd (L.at_inj h L.pos he) (Nat.succ_ne_zero _)

/-! ## `write_log` -/

/-- A write that is not the header's. -/
theorem View.write_of_ne (v : View) {x : Block} (hb : b ≠ L.at 0) :
    v.write L b x = { v with disk := update v.disk b x } := by
  unfold View.write
  rw [if_neg fun h => hb h.1]

theorem View.write_same (L : Layout) (v : View) (b : BlockNo) (x : Block) :
    (v.write L b x).lh = v.lh ∧ (v.write L b x).pinned = v.pinned ∧
      (v.write L b x).booted = v.booted := by
  unfold View.write
  split <;> exact ⟨rfl, rfl, rfl⟩

theorem View.write_disk (L : Layout) (v : View) (b : BlockNo) (x : Block) :
    (v.write L b x).disk = update v.disk b x := by
  unfold View.write
  split <;> rfl

/-- The contents of log block `tail`, after the iteration for block `b`. -/
structure Filled (L : Layout) (d₀ : BlockNo → Block) (strict : Prop) (tail : Nat) (b : BlockNo)
    (v v' : View) : Prop where
  same : v'.lh = v.lh ∧ v'.pinned = v.pinned ∧ v'.booted = v.booted
  log : strict → v'.pending = v.pending ∧ v'.committed = v.committed
  block : strict → v'.disk (L.at (tail + 1)) = v.cur d₀ b
  rest : strict → ∀ c, c ≠ L.at (tail + 1) → v'.disk c = v.disk c

/-- What `write_log` may rely on. -/
structure CanFill (L : Layout) (v : View) (tail : Nat) (b : BlockNo) : Prop where
  booted : v.booted = true
  empty : hdrN (v.disk (L.at 0)) = 0
  room : tail + 1 < L.size
  home : L.Home b

theorem wp_writeLogBody
    (hO : Owns L d₀ strict p [] v s) (hcan : strict → CanFill L v tail b)
    (hQ : ∀ t v', Owns L d₀ strict p [] v' t → Filled L d₀ strict tail b v v' →
      (rules L d₀ strict ok).WP p m Q t) : (rules L d₀ strict ok).WP p
      ((bread (L.at (tail + 1))).bind fun dst => (bread b).bind fun src =>
        (copyData dst src).bind fun _ => (bwrite dst).bind fun _ =>
        (brelse src).bind fun _ => (brelse dst).bind fun _ => m) Q s := by
  refine own_bread_two hO fun dst src s1 hO1 hne _ hd1 => ?_
  have hsrc : (src, b) ∈ [(src, b), (dst, L.at (tail + 1))] := by simp
  -- what is copied is the current contents of the block
  have hcur : strict → (s1.buf src).data = v.cur d₀ b := by
    intro hst
    have hb : (s1.buf src).blockno = b := hO1.has.key _ hsrc
    have hbt := (hcan hst).booted
    rw [← hO1.view] at hbt ⊢
    have := (hO1.inv.durable hst).cached hbt src (hO1.has.valid _ hsrc) hd1
      (by rw [hb]; exact (hcan hst).home)
    rwa [hb] at this
  refine own_copyWrite hO1 (b := L.at (tail + 1)) (by simp) hsrc hne hd1 (fun hst => ?_)
    fun s2 hO2 _ hd2 hd2' => ?_
  · obtain ⟨hbt, hempty, hroom, hhome⟩ := hcan hst
    rw [v.write_of_ne (L.at_succ_ne hroom)]
    exact ⟨(hO1.onDisk hst).fill hempty hroom _, fun _ hh => absurd hh (L.not_home_at hroom),
      fun hb => by rw [hbt] at hb; cases hb⟩
  · have hdrop : dropBuf src [(src, b), (dst, L.at (tail + 1))] = [(dst, L.at (tail + 1))] := by
      simp [dropBuf, hne.symm]
    refine own_brelse_two hO2 (by simp) hdrop hd2' hd2 fun t hOt =>
      hQ t _ hOt ⟨v.write_same .., fun hst => ?_, fun hst => ?_, fun hst c hc => ?_⟩
    · rw [v.write_of_ne (L.at_succ_ne (hcan hst).room)]
      exact ⟨rfl, rfl⟩
    · rw [View.write_disk, update_self]; exact hcur hst
    · rw [View.write_disk, update_of_ne hc]

/-- The log area from block `tail` on holds the current contents of `bs`. -/
structure Logged (L : Layout) (d₀ : BlockNo → Block) (strict : Prop) (tail : Nat)
    (bs : List BlockNo) (v v' : View) : Prop where
  same : v'.lh = v.lh ∧ v'.pinned = v.pinned ∧ v'.booted = v.booted
  log : strict → v'.pending = v.pending ∧ v'.committed = v.committed
  blocks : strict → ∀ i (h : i < bs.length), v'.disk (L.at (tail + i + 1)) = v.cur d₀ bs[i]
  rest : strict → ∀ c, (∀ i < bs.length, c ≠ L.at (tail + i + 1)) → v'.disk c = v.disk c

theorem wp_writeLogFrom (hO : Owns L d₀ strict p [] v s)
    (hcan : strict → v.booted = true ∧ hdrN (v.disk (L.at 0)) = 0 ∧ tail + bs.length < L.size ∧
      ∀ b ∈ bs, L.Home b)
    (hQ : ∀ t v', Owns L d₀ strict p [] v' t → Logged L d₀ strict tail bs v v' → Q () t) :
    (rules L d₀ strict ok).WP p (writeLogFrom L tail bs) Q s := by
  -- over the blocks still to be copied; what is copied stays, since log blocks are distinct
  induction bs generalizing tail v s with
  | nil =>
    refine hQ s v hO ⟨⟨rfl, rfl, rfl⟩, fun _ => ⟨rfl, rfl⟩, fun _ i hi => ?_, fun _ _ _ => rfl⟩
    cases hi
  | cons b bs ih =>
    simp only [length_cons] at hcan
    refine wp_writeLogBody hO (fun hst => ?_) fun t v1 hOt hF => ?_
    · obtain ⟨h1, h2, h3, h4⟩ := hcan hst
      exact ⟨h1, h2, by omega, h4 b mem_cons_self⟩
    · obtain ⟨hlh, hpin, hbt⟩ := hF.same
      refine ih hOt (fun hst => ?_) fun u v2 hOu hL => hQ u v2 hOu ?_
      · obtain ⟨h1, h2, h3, h4⟩ := hcan hst
        refine ⟨hbt.trans h1, ?_, by omega, fun c hc => h4 c (mem_cons_of_mem _ hc)⟩
        rwa [hF.rest hst _ (L.at_succ_ne (by omega)).symm]
      · obtain ⟨hlh', hpin', hbt'⟩ := hL.same
        refine ⟨⟨hlh'.trans hlh, hpin'.trans hpin, hbt'.trans hbt⟩, fun hst => ?_,
          fun hst i hi => ?_, fun hst c hc => ?_⟩
        · exact ⟨(hL.log hst).1.trans (hF.log hst).1, (hL.log hst).2.trans (hF.log hst).2⟩
        · cases i with
          | zero =>
            have hold : ∀ i < bs.length, L.at (tail + 1) ≠ L.at (tail + 1 + i + 1) := by
              intro i hi' he
              have := L.at_inj (by have := (hcan hst).2.2.1; omega)
                (by have := (hcan hst).2.2.1; omega) he
              omega
            rw [hL.rest hst _ hold]
            exact hF.block hst
          | succ i =>
            have := hL.blocks hst i (by simpa using hi)
            rw [(View.content_congr (hF.log hst)).1] at this
            simp only [getElem_cons_succ]
            rw [← this]
            congr 2
            omega
        · have h1 : c ≠ L.at (tail + 1) := hc 0 (by simp)
          rw [hL.rest hst c fun i hi => ?_, hF.rest hst c h1]
          have := hc (i + 1) (by simpa using hi)
          rwa [show tail + (i + 1) + 1 = tail + 1 + i + 1 by omega] at this

/-! ## `write_head` -/

theorem wp_writeHead (hO : Owns L d₀ strict p [] v s)
    (hon : strict → (v.booted = false → v.pending = []) ∧
      ∀ d, OnDisk L (v.write L (L.at 0) (putHdr d v.lh)).disk
        ((v.write L (L.at 0) (putHdr d v.lh)).durable d₀))
    (hQ : ∀ t d, Owns L d₀ strict p [] (v.write L (L.at 0) (putHdr d v.lh)) t → Q () t) :
    (rules L d₀ strict ok).WP p (writeHead L) Q s := by
  refine Rules.WP.bind (own_bread hO fun i s1 hO1 _ _ => ?_)
  refine Rules.WP.bind (wp_getData hO1.inv hO1.has (by simp) fun s2 hJ2 hK2 hH2 => ?_)
  have hO2 := hO1.keep hJ2 hK2 hH2
  refine Rules.WP.bind (wp_getLh hO2 fun s3 hO3 _ => ?_)
  refine Rules.WP.bind (wp_setData hO3.inv hO3.has (b := L.at 0) (by simp) (.inr hO3.owner)
    fun s4 hJ4 hK4 hH4 hd4 _ => ?_)
  have hO4 := hO3.keep hJ4 hK4 hH4
  refine Rules.WP.bind (wp_bwrite hO4 (b := L.at 0) (by simp) hd4 (fun hst => ?_)
    fun s5 hO5 _ hd5 _ => ?_)
  · exact ⟨(hon hst).2 _, fun _ hh => absurd hh (L.not_home_at L.pos), (hon hst).1⟩
  · refine own_brelse hO5 (by simp) hd5 fun t hOt _ => hQ t (s1.buf i).data ?_
    simpa [dropBuf] using hOt

/-! ## `install_trans` -/

/-- Block `b` is in place, and no longer pinned unless the machine is recovering. -/
structure Installed (d₀ : BlockNo → Block) (strict : Prop) (recovering : Bool)
    (b : BlockNo) (v v' : View) : Prop where
  same : v'.lh = v.lh ∧ v'.booted = v.booted
  pinned : v'.pinned = if recovering then v.pinned else v.pinned.tail
  log : strict → v'.pending = v.pending ∧ v'.committed = v.committed
  block : strict → v'.disk b = v.durable d₀ b
  rest : strict → ∀ c, c ≠ b → v'.disk c = v.disk c

/-- What an iteration of `install_trans` may rely on. -/
structure CanInstall (L : Layout) (v : View) (tail : Nat) (b : BlockNo) : Prop where
  header : (hdrBlocks (v.disk (L.at 0)))[tail]? = some b
  pending : v.pending = []
  lh : ∀ c ∈ v.lh, L.Home c

theorem wp_installBody (hO : Owns L d₀ strict p [] v s)
    (hpin : recovering = false → ∃ bs, v.pinned = b :: bs) (hcan : strict → CanInstall L v tail b)
    (hQ : ∀ t v', Owns L d₀ strict p [] v' t → Installed d₀ strict recovering b v v' →
      (rules L d₀ strict ok).WP p m Q t) : (rules L d₀ strict ok).WP p
      ((bread (L.at (tail + 1))).bind fun lbuf => (bread b).bind fun dbuf =>
        (copyData dbuf lbuf).bind fun _ => (bwrite dbuf).bind fun _ =>
        (if recovering = false then Prim.bunpin dbuf else .ret ()).bind fun _ =>
        (brelse lbuf).bind fun _ => (brelse dbuf).bind fun _ => m) Q s := by
  refine own_bread_two hO fun lbuf dbuf s1 hO1 hne hd1 _ => ?_
  have hl : (lbuf, L.at (tail + 1)) ∈ [(dbuf, b), (lbuf, L.at (tail + 1))] := by simp
  have hon : strict → OnDisk L v.disk (v.durable d₀) := hO1.onDisk
  have htail : strict → ∃ h : tail < (hdrBlocks (v.disk (L.at 0))).length,
      (hdrBlocks (v.disk (L.at 0)))[tail] = b := fun hst =>
    List.getElem?_eq_some_iff.mp (hcan hst).header
  -- what is copied is the log block, which holds the committed contents of `b`
  have hdur : strict → (s1.buf lbuf).data = v.durable d₀ b := by
    intro hst
    obtain ⟨hlt, hb⟩ := htail hst
    have hroom := (hon hst).room
    have hno : (s1.buf lbuf).blockno = L.at (tail + 1) := hO1.has.key _ hl
    have hlogged := (hon hst).logged tail hlt
    have hlh := (hcan hst).lh
    rw [hb] at hlogged
    rw [← hlogged]
    rw [← hO1.view] at hlh ⊢
    rcases hO1.inv.base.coherent lbuf (hO1.has.valid _ hl) hd1 with he | hp
    · rw [he, hno]
      rfl
    · have hm := hO1.inv.base.pinsLh lbuf hp
      rw [hno] at hm
      exact absurd (hlh _ hm) (L.not_home_at (by omega))
  have hmem : strict → b ∈ hdrBlocks (v.disk (L.at 0)) := fun hst => by
    obtain ⟨hlt, hb⟩ := htail hst
    exact hb ▸ getElem_mem hlt
  have hw : strict → v.write L b (s1.buf lbuf).data
      = { v with disk := update v.disk b (s1.buf lbuf).data } :=
    fun hst => v.write_of_ne (((hon hst).home b (hmem hst)).ne_at L.pos)
  have hcur : strict → v.cur d₀ = v.durable d₀ := fun hst => by
    unfold View.cur View.durable
    rw [(hcan hst).pending, append_nil]
  refine own_copyWrite hO1 (b := b) (by simp) hl hne.symm hd1 (fun hst => ?_)
    fun s2 hO2 hdata2 hd2 hdl => ?_
  · rw [hw hst, hcur hst]
    exact ⟨(hon hst).install (hmem hst) _, fun _ _ => hdur hst, fun _ => (hcan hst).pending⟩
  have hdrop : dropBuf lbuf [(dbuf, b), (lbuf, L.at (tail + 1))] = [(dbuf, b)] := by
    simp [dropBuf, hne]
  obtain ⟨hlh, hpinned, hbt⟩ := v.write_same L b (s1.buf lbuf).data
  have hlog : strict → (v.write L b (s1.buf lbuf).data).pending = v.pending ∧
      (v.write L b (s1.buf lbuf).data).committed = v.committed := fun hst => by
    rw [hw hst]; exact ⟨rfl, rfl⟩
  have hself : (v.write L b (s1.buf lbuf).data).disk b = (s1.buf lbuf).data := by
    rw [View.write_disk, update_self]
  have hrest : ∀ c, c ≠ b → (v.write L b (s1.buf lbuf).data).disk c = v.disk c := fun c hc => by
    rw [View.write_disk, update_of_ne hc]
  cases recovering with
  | true =>
    exact own_brelse_two hO2 (by simp) hdrop hdl hd2 fun t hOt => hQ t _ hOt
      ⟨⟨hlh, hbt⟩, hpinned, hlog, fun hst => hself.trans (hdur hst), fun _ => hrest⟩
  | false =>
    obtain ⟨bs, hbs⟩ := hpin rfl
    refine Rules.WP.bind (wp_bunpin hO2 (by simp) (hpinned.trans hbs) hd2
      (hdata2.trans hself.symm) (fun hst => ?_) fun s3 hO3 hrest3 => ?_)
    · rw [hself, (View.content_congr (hlog hst)).1, hcur hst]
      exact hdur hst
    · refine own_brelse_two hO3 (by simp) hdrop ((hrest3 lbuf (by simp)).2.trans hdl)
        ((hrest3 dbuf (by simp)).2.trans hd2) fun t hOt => hQ t _ hOt
        ⟨⟨hlh, hbt⟩, ?_, hlog, fun hst => hself.trans (hdur hst), fun _ => hrest⟩
      rw [hbs]; rfl

/-- The code of one iteration, as the lemma above has it. -/
theorem installFrom_cons (L : Layout) (recovering : Bool) (tail : Nat) (b : BlockNo)
    (bs : List BlockNo) :
    (installFrom L recovering tail (b :: bs) : Prog (sig X) Unit)
      = (bread (L.at (tail + 1))).bind fun lbuf => (bread b).bind fun dbuf =>
        (copyData dbuf lbuf).bind fun _ => (bwrite dbuf).bind fun _ =>
        (if recovering = false then Prim.bunpin dbuf else .ret ()).bind fun _ =>
        (brelse lbuf).bind fun _ => (brelse dbuf).bind fun _ =>
        installFrom L recovering (tail + 1) bs := by
  cases recovering <;> rfl

/-- Every block of `bs` is in place and, unless the machine is recovering, none
is pinned any more. -/
structure AllInstalled (d₀ : BlockNo → Block) (strict : Prop)
    (bs : List BlockNo) (v v' : View) : Prop where
  same : v'.lh = v.lh ∧ v'.booted = v.booted
  pinned : v'.pinned = []
  log : strict → v'.pending = v.pending ∧ v'.committed = v.committed
  blocks : strict → ∀ b ∈ bs, v'.disk b = v.durable d₀ b
  rest : strict → ∀ c, c ∉ bs → v'.disk c = v.disk c

theorem wp_installFrom {l : List BlockNo} (hO : Owns L d₀ strict p [] v s)
    (hpin : v.pinned = if recovering then [] else bs)
    (hcan : strict → hdrBlocks (v.disk (L.at 0)) = l ++ bs ∧ l.length = tail ∧
      v.pending = [] ∧ ∀ c ∈ v.lh, L.Home c)
    (hQ : ∀ t v', Owns L d₀ strict p [] v' t → AllInstalled d₀ strict bs v v' → Q () t) :
    (rules L d₀ strict ok).WP p (installFrom L recovering tail bs) Q s := by
  -- over the blocks still to be installed; the header names them until the end
  induction bs generalizing l tail v s with
  | nil =>
    refine hQ s v hO ⟨⟨rfl, rfl⟩, ?_, fun _ => ⟨rfl, rfl⟩, fun _ b hb => (by cases hb),
      fun _ _ _ => rfl⟩
    rw [hpin]; split <;> rfl
  | cons b bs ih =>
    rw [installFrom_cons]
    refine wp_installBody hO (fun hr => ⟨bs, ?_⟩) (fun hst => ?_) fun t v1 hOt hF => ?_
    · rw [hpin, hr]; rfl
    · obtain ⟨h1, h2, h3, h4⟩ := hcan hst
      refine ⟨?_, h3, h4⟩
      rw [h1, ← h2]; simp
    · obtain ⟨hlh, hbt⟩ := hF.same
      refine ih (l := l ++ [b]) hOt ?_ (fun hst => ?_)
        fun u v2 hOu hA => hQ u v2 hOu ?_
      · rw [hF.pinned, hpin]; split <;> rfl
      · obtain ⟨h1, h2, h3, h4⟩ := hcan hst
        have hhome : L.Home b := (hO.onDisk hst).home b (by rw [h1]; simp)
        refine ⟨?_, by simp [h2], (hF.log hst).1.trans h3, by rwa [hlh]⟩
        rw [hF.rest hst _ (hhome.ne_at L.pos).symm, h1]; simp
      · obtain ⟨hlh', hbt'⟩ := hA.same
        refine ⟨⟨hlh'.trans hlh, hbt'.trans hbt⟩, hA.pinned, fun hst => ?_, fun hst c hc => ?_,
          fun hst c hc => ?_⟩
        · exact ⟨(hA.log hst).1.trans (hF.log hst).1, (hA.log hst).2.trans (hF.log hst).2⟩
        · by_cases hcb : c ∈ bs
          · rw [hA.blocks hst c hcb, (View.content_congr (hF.log hst)).2]
          · obtain rfl : c = b := by
              rcases mem_cons.mp hc with h | h
              · exact h
              · exact absurd h hcb
            rw [hA.rest hst c hcb]; exact hF.block hst
        · rw [mem_cons, not_or] at hc
          rw [hA.rest hst c hc.2, hF.rest hst c hc.1]

/-! ## `commit` -/

/-- What `commit` and the recovery leave. -/
structure Finished (L : Layout) (strict : Prop) (v v' : View) : Prop where
  lh : v'.lh = []
  pinned : v'.pinned = []
  booted : v'.booted = v.booted
  log : strict → v'.pending = [] ∧ v'.committed = v.committed ++ v.pending
  header : strict → hdrN (v'.disk (L.at 0)) = 0

/-- Once everything the header names is in place, erase the log. -/
theorem wp_eraseLog (hO : Owns L d₀ strict p [] v s) (hpin : v.pinned = [])
    (hcan : strict → v.pending = [] ∧ ∀ b ∈ hdrBlocks (v.disk (L.at 0)), v.disk b = v.durable d₀ b)
    (hQ : ∀ t v', Owns L d₀ strict p [] v' t → Finished L strict v v' → Q () t) :
    (rules L d₀ strict ok).WP p ((Prim.setLh []).bind fun _ => writeHead L) Q s := by
  have h0 : ∀ d : Block, hdrN (putHdr d []) = 0 := fun d => hdrN_putHdr d (Nat.zero_le _)
  refine Rules.WP.bind (wp_setLh hO hpin (fun _ => rfl) (fun hst => ?_) fun s1 hO1 _ => ?_)
  · exact ⟨(hcan hst).1, by simp, Nat.zero_le _, L.pos⟩
  have hw : ∀ d, View.write L { v with lh := [] } (L.at 0) (putHdr d [])
      = { v with lh := [], disk := update v.disk (L.at 0) (putHdr d []) } := fun d => by
    unfold View.write
    rw [h0]; simp
  refine wp_writeHead hO1 (fun hst => ⟨fun _ => (hcan hst).1, fun d => ?_⟩)
    fun t d hOt => hQ t _ hOt ?_
  · show OnDisk L (View.write L { v with lh := [] } (L.at 0) (putHdr d [])).disk
      ((View.write L { v with lh := [] } (L.at 0) (putHdr d [])).durable d₀)
    rw [hw d]
    exact (hO.onDisk hst).clear d (hcan hst).2
  · show Finished L strict v (View.write L { v with lh := [] } (L.at 0) (putHdr d []))
    rw [hw d]
    refine ⟨rfl, hpin, rfl, fun hst => ⟨(hcan hst).1, ?_⟩, fun _ => ?_⟩
    · rw [(hcan hst).1, append_nil]
    · show hdrN (update v.disk (L.at 0) (putHdr d []) (L.at 0)) = 0
      rw [update_self, h0]

/-- The second half of `commit`, which is also the recovery's: install what the
header names and erase the log. -/
theorem wp_installErase (hO : Owns L d₀ strict p [] v s)
    (hpin : v.pinned = if recovering then [] else v.lh)
    (hcan : strict → hdrBlocks (v.disk (L.at 0)) = v.lh ∧ v.pending = [] ∧ ∀ c ∈ v.lh, L.Home c)
    (hQ : ∀ t v', Owns L d₀ strict p [] v' t → Finished L strict v v' → Q () t) :
    (rules L d₀ strict ok).WP p ((installTrans L recovering).bind fun _ =>
      (Prim.setLh []).bind fun _ => writeHead L) Q s := by
  refine Rules.WP.bind (Rules.WP.bind (wp_getLh hO fun s1 hO1 _ => ?_))
  refine wp_installFrom (l := []) hO1 hpin (fun hst => ⟨(hcan hst).1, rfl, (hcan hst).2⟩)
    fun s2 v2 hO2 hA => ?_
  refine wp_eraseLog hO2 hA.pinned (fun hst => ⟨?_, fun b hb => ?_⟩)
    fun t v' hOt hF => hQ t v' hOt ?_
  · exact (hA.log hst).1.trans (hcan hst).2.1
  · obtain ⟨hhdr, -, hhome⟩ := hcan hst
    rw [hA.rest hst _ fun hm => (L.not_home_at L.pos) (hhome _ hm), hhdr] at hb
    rw [(View.content_congr (hA.log hst)).2]; exact hA.blocks hst b hb
  · refine ⟨hF.lh, hF.pinned, hF.booted.trans hA.same.2, fun hst => ⟨(hF.log hst).1, ?_⟩,
      hF.header⟩
    rw [(hF.log hst).2, (hA.log hst).1, (hA.log hst).2]

/-- The header that makes the transaction count. -/
theorem View.onDisk_commit {v : View} (hon : OnDisk L v.disk (v.durable d₀))
    (h0 : hdrN (v.disk (L.at 0)) = 0) (hpos : 0 < v.lh.length) (hlen : v.lh.length ≤ LOGSIZE)
    (hroom : v.lh.length < L.size) (hnodup : v.lh.Nodup) (hhome : ∀ b ∈ v.lh, L.Home b)
    (hpend : ∀ u ∈ v.pending, u.blockno ∈ v.lh)
    (hlog : ∀ i (h : i < v.lh.length), v.disk (L.at (i + 1)) = v.cur d₀ v.lh[i]) (d : Block) :
    v.write L (L.at 0) (putHdr d v.lh) = { v with
        disk := update v.disk (L.at 0) (putHdr d v.lh)
        committed := v.committed ++ v.pending, pending := [] } ∧
      OnDisk L (update v.disk (L.at 0) (putHdr d v.lh)) (v.cur d₀) := by
  refine ⟨?_, hon.commit h0 hlen hroom hnodup hhome hlog fun b hb => ?_⟩
  · unfold View.write
    rw [if_pos]
    rw [hdrN_putHdr d hlen]
    exact ⟨rfl, by exact_mod_cast hpos⟩
  · exact content_append_of_not_mem _ _ _ fun u hu he => hb (he ▸ hpend u hu)

theorem Owns.lh_nodup {s : Sys N M} (hO : Owns L d₀ strict p hs v s)
    (hpin : v.pinned = v.lh) : v.lh.Nodup := by
  have hmap : s.pins.map (fun i => (s.buf i).blockno) = v.lh := by
    rw [← hpin, ← hO.view]; rfl
  rw [← hmap]
  refine hO.inv.base.pinsNodup.map_on fun i hi j hj he => ?_
  have hB := hO.inv.base
  exact hB.uniq i j (hB.dev_of_pin hi) (hB.dev_of_pin hj) he

/-- **`commit`**. -/
theorem wp_commit (hO : Owns L d₀ strict p [] v s)
    (hbt : v.booted = true) (hpin : v.pinned = v.lh) (h0 : strict → hdrN (v.disk (L.at 0)) = 0)
    (hQ : ∀ t v', Owns L d₀ strict p [] v' t → Finished L strict v v' → Q () t) :
    (rules L d₀ strict ok).WP p (commit L) Q s := by
  obtain rfl := hO.view
  obtain ⟨v, hv⟩ : ∃ v, v = s.view := ⟨_, rfl⟩
  rw [← hv] at hO hbt hpin h0 hQ
  have hpend : strict → ∀ u ∈ v.pending, u.blockno ∈ v.lh := by
    rw [hv]
    exact fun hst => (hO.inv.durable hst).pendLh
  have hhome : strict → ∀ b ∈ v.lh, L.Home b := by
    rw [hv]
    exact fun hst => (hO.inv.durable hst).homeLh
  have hroom : strict → v.lh.length ≤ LOGSIZE ∧ v.lh.length < L.size := by
    rw [hv]
    exact fun hst => (hO.inv.durable hst).lhRoom
  have hnodup := hO.lh_nodup hpin
  refine Rules.WP.bind (wp_getLh hO fun s1 hO1 _ => ?_)
  by_cases hpos : 0 < v.lh.length
  · rw [if_pos hpos]
    refine Rules.WP.bind (Rules.WP.bind (wp_getLh hO1 fun s2 hO2 _ => ?_))
    refine wp_writeLogFrom hO2 (fun hst => ⟨hbt, h0 hst, ?_, hhome hst⟩)
      fun s3 v3 hO3 hL => ?_
    · have := (hroom hst).2
      omega
    obtain ⟨hlh3, hpin3, hbt3⟩ := hL.same
    have hcommit : strict → ∀ d, v3.write L (L.at 0) (putHdr d v3.lh) = { v3 with
          disk := update v3.disk (L.at 0) (putHdr d v3.lh)
          committed := v3.committed ++ v3.pending, pending := [] } ∧
        OnDisk L (update v3.disk (L.at 0) (putHdr d v3.lh)) (v3.cur d₀) := by
      intro hst d
      have h03 : hdrN (v3.disk (L.at 0)) = 0 := by
        rw [hL.rest hst _ fun i hi he => ?_]
        · exact h0 hst
        · have := L.at_inj L.pos (by have := (hroom hst).2; omega) he
          omega
      refine View.onDisk_commit (hO3.onDisk hst) h03 (by rwa [hlh3]) (by rw [hlh3]; exact (hroom hst).1)
        (by rw [hlh3]; exact (hroom hst).2) (by rwa [hlh3])
        (by rw [hlh3]; exact hhome hst) ?_ (fun i hi => ?_) d
      · rw [(hL.log hst).1, hlh3]; exact hpend hst
      · simp only [hlh3] at hi ⊢
        have := hL.blocks hst i hi
        rw [Nat.zero_add] at this
        rw [this, (View.content_congr (hL.log hst)).1]
    refine Rules.WP.bind (wp_writeHead hO3 (fun hst => ⟨fun hb => ?_, fun d => ?_⟩)
      fun s4 d hO4 => ?_)
    · rw [hbt3, hbt] at hb; cases hb
    · obtain ⟨he, hon⟩ := hcommit hst d
      rwa [he]
    -- the transaction is committed; what remains is the second half
    obtain ⟨hlh4, hpin4, hbt4⟩ := v3.write_same L (L.at 0) (putHdr d v3.lh)
    have hv4 := fun hst => (hcommit hst d).1
    generalize v3.write L (L.at 0) (putHdr d v3.lh) = v4 at hO4 hlh4 hpin4 hbt4 hv4
    have hlh4' : v4.lh = v.lh := hlh4.trans hlh3
    refine wp_installErase hO4 ?_ (fun hst => ?_) fun t v' hOt hF => hQ t v' hOt ?_
    · rw [hpin4, hpin3, hpin, hlh4']; rfl
    · rw [hlh4']
      refine ⟨?_, by rw [hv4 hst], hhome hst⟩
      rw [hv4 hst]
      show hdrBlocks (update v3.disk (L.at 0) _ (L.at 0)) = _
      rw [update_self, hdrBlocks_putHdr d (by rw [hlh3]; exact (hroom hst).1), hlh3]
    · refine ⟨hF.lh, hF.pinned, ?_, fun hst => ⟨(hF.log hst).1, ?_⟩, hF.header⟩
      · rw [hF.booted, hbt4, hbt3]
      · rw [(hF.log hst).2, hv4 hst, append_nil, (hL.log hst).1, (hL.log hst).2]
  · rw [if_neg hpos]
    have hnil : v.lh = [] := length_eq_zero_iff.mp (by omega)
    have hp : strict → v.pending = [] := fun hst =>
      eq_nil_iff_forall_not_mem.mpr fun u hu => by
        have := hpend hst u hu
        rw [hnil] at this; cases this
    exact hQ s1 v hO1 ⟨hnil, hpin.trans hnil, rfl,
      fun hst => ⟨hp hst, by rw [hp hst, append_nil]⟩, h0⟩

/-! ## Recovery -/

/-- **`read_head`**: the header on disk becomes the header in memory. -/
theorem wp_readHead (hO : Owns L d₀ strict p [] v s)
    (hbt : v.booted = false) (hpin : v.pinned = []) (hpend : strict → v.pending = [])
    (hQ : ∀ t lh, Owns L d₀ strict p [] { v with lh := lh } t →
      (strict → lh = hdrBlocks (v.disk (L.at 0))) → Q () t) :
    (rules L d₀ strict ok).WP p (readHead L) Q s := by
  refine Rules.WP.bind (own_bread hO fun i s1 hO1 _ hd1 => ?_)
  refine Rules.WP.bind (wp_getData hO1.inv hO1.has (by simp) fun s2 hJ2 hK2 hH2 => ?_)
  have hO2 := hO1.keep hJ2 hK2 hH2
  have hmem : (i, L.at 0) ∈ [(i, L.at 0)] := by simp
  have hdata : (s1.buf i).data = v.disk (L.at 0) := by
    rcases hO1.inv.base.coherent i (hO1.has.valid _ hmem) hd1 with he | hp
    · rw [he, hO1.has.key _ hmem, ← hO1.view]
      rfl
    · rw [hO1.pins_nil hpin] at hp; cases hp
  have hd2 : (s2.buf i).dirty = false :=
    (hK2.bufs i (by simp) (hO1.has.locked hmem)).2.2.2.2.trans hd1
  rw [hdata]
  split
  · exact fun s' _ _ => ⟨trivial, fun r => r.elim⟩
  · refine Rules.WP.bind (wp_setLh hO2 hpin (fun h => ?_) (fun hst => ?_)
      fun s3 hO3 hrest3 => ?_)
    · rw [hbt] at h; cases h
    · have hon := hO2.onDisk hst
      refine ⟨hpend hst, hon.home, ?_, hon.room⟩
      simp only [hdrBlocks, length_map, length_range]
      omega
    · refine own_brelse hO3 (by simp) ((hrest3 i (by simp)).2.trans hd2) fun t hOt _ =>
        hQ t _ ?_ fun _ => rfl
      simpa [dropBuf] using hOt

/-- **`recover_from_log`**. -/
theorem wp_recoverFromLog (hO : Owns L d₀ strict p [] v s) (hbt : v.booted = false)
    (hpin : v.pinned = [])
    (hpend : strict → v.pending = [])
    (hQ : ∀ t v', Owns L d₀ strict p [] v' t → Finished L strict v v' → Q () t) :
    (rules L d₀ strict ok).WP p (recoverFromLog L) Q s := by
  refine Rules.WP.bind (wp_readHead hO hbt hpin hpend fun s1 lh hO1 hlh => ?_)
  refine wp_installErase hO1 hpin (fun hst => ⟨(hlh hst).symm, hpend hst, ?_⟩)
    fun t v' hOt hF => hQ t v' hOt { hF with }
  show ∀ c ∈ lh, L.Home c
  rw [hlh hst]; exact (hO.onDisk hst).home

/-! ## Leaving -/

/-- A process with nothing to do. -/
structure Idle {M : Type} (p : Fin N) (s : Sys N M) : Prop where
  has : Has p [] s
  op : s.op p = none
  owner : s.owner ≠ some p

theorem Idle.rely {s t : Sys N M} (h : Idle p s) (hr : Rely p s t) : Idle p t :=
  ⟨h.has.rely hr, hr.op.trans h.op, fun ho => h.owner (hr.owner.mp ho)⟩

/-- What the last operation of `commit` and of the recovery finds. -/
theorem Owns.finished {s : Sys N M} {v0 : View} (hO : Owns L d₀ strict p [] v s)
    (hF : Finished L strict v0 v) : s.lh = [] ∧ s.pins = [] ∧ Clean p s ∧
      (strict → s.pending = [] ∧ hdrN (s.disk (L.at 0)) = 0) := by
  refine ⟨?_, hO.pins_nil hF.pinned, hO.has.clean_nil, fun hst => ?_⟩
  · rw [← hF.lh, ← hO.view]; rfl
  · have h1 := (hF.log hst).1
    have h2 := hF.header hst
    rw [← hO.view] at h1 h2
    exact ⟨h1, h2⟩

/-- **`initlog`** after a boot: the process ends with nothing. -/
theorem wp_initlog (hO : Owns L d₀ strict p [] v s) (hbt : v.booted = false)
    (hpin : v.pinned = []) (hpend : strict → v.pending = []) :
    (rules L d₀ strict ok).WP p (initlog L) (fun _ => Idle p) s := by
  refine Rules.WP.bind (wp_recoverFromLog hO hbt hpin hpend fun s1 v1 hO1 hF => ?_)
  intro s2 hJ2 hr
  have hO2 := hO1.rely hJ2 hr
  obtain ⟨hlh, hpins, hcl, hst⟩ := hO2.finished hF
  have hb : s2.booted = false := by
    have : v1.booted = false := hF.booted.trans hbt
    rwa [← hO2.view] at this
  refine ⟨⟨hO2.owner, hb, hlh, hpins, hcl, hst⟩, fun _ t hp hJt => ?_⟩
  obtain ⟨-, rfl⟩ := answer_of_rules hp fun hs => if_neg hs
  exact ⟨{ hO2.has with }, hO2.inv.base.alone (by rw [hO2.owner]; rfl) p, by simp⟩

/-- **`end_op`**: whoever ends the last operation of the group commits it. -/
theorem wp_endOp (hH : Has p [] s)
    (hop : (s.op p).isSome = true) (hQ : ∀ t, Inv L d₀ strict t → t.booted = true → Idle p t → Q () t) :
    (rules L d₀ strict ok).WP p (endOpCode L) Q s := by
  intro s1 hJ1 hr
  have hH1 := hH.rely hr
  have hop1 : (s1.op p).isSome = true := by rwa [hr.op]
  have ho1 := hJ1.base.owner_none hop1
  have hb1 := hJ1.base.booted_of_op hop1
  refine ⟨⟨hop1, hH1.clean_nil⟩, fun c t hp hJt => ?_⟩
  have hp := perform_of_rules hp
  have hp' : endOp p s1 = (some c, t) := Option.some.inj ((if_neg (perform_alive hp)).symm.trans hp)
  rcases endOp_cases hJ1.base.toTurns hop1 with ⟨he, -⟩ | ⟨he, -⟩
  · rw [he] at hp'
    obtain ⟨h1, rfl⟩ := Prod.mk.inj hp'
    cases h1
    have hO := (⟨hJt, rfl, { hH1 with }, rfl⟩ : Owns L d₀ strict p [] _ { s1 with
      outstanding := s1.outstanding - 1, op := update s1.op p none,
      committing := true, owner := some p })
    show (rules L d₀ strict ok).WP p ((commit L).bind fun _ => Prim.endCommit) Q _
    refine Rules.WP.bind (wp_commit hO hb1 (hJ1.base.pinned ho1)
      (fun hst => (hJ1.durable hst).clean hb1 ho1) fun s2 v2 hO2 hF => ?_)
    intro s3 hJ3 hr3
    have hO3 := hO2.rely hJ3 hr3
    obtain ⟨hlh, hpins, hcl, hst⟩ := hO3.finished hF
    have hb3 : s3.booted = true := by
      have : v2.booted = true := hF.booted.trans hb1
      rwa [← hO3.view] at this
    refine ⟨⟨hO3.owner, hb3, hlh, hpins, hcl, hst⟩, fun _ u hp3 hJu => ?_⟩
    obtain ⟨-, rfl⟩ := answer_of_rules hp3 fun hs => if_neg hs
    exact hQ _ hJu hb3 ⟨{ hO3.has with }, hO3.inv.base.alone (by rw [hO3.owner]; rfl) p, nofun⟩
  · rw [he] at hp'
    obtain ⟨h1, rfl⟩ := Prod.mk.inj hp'
    cases h1
    refine hQ _ hJt hb1 ⟨{ hH1 with }, update_self .., ?_⟩
    show s1.owner ≠ some p
    rw [ho1]; simp

end Xv6.Log
