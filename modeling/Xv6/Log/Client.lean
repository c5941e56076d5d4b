/-
# `Xv6.Log.Client` — what a system call owes the log

`Disc` reads a system call as a program over `bread`, `log_write`, `brelse`,
`begin_op` and `end_op`, and asks of every path through it, whatever the calls
answer:

  * a buffer is changed or logged only while it is held and inside an operation;
  * a buffer that was changed is logged before it is released;
  * nothing is held when the operation ends;
  * what is logged lies in `home`.

It is a condition on the program alone; `wp_compile` turns it into the
obligations of the log system.
-/
import Xv6.Log.Commit

namespace Xv6.Log

open Machine Function List

variable {N : Nat} {X : Ext N}

/-- What a system call has: whether it is in an operation, the buffers it holds,
and those it changed and has not logged. -/
structure Local where
  inOp : Bool
  held : List (BufPtr × BlockNo)
  dirty : List BufPtr

/-- Outside the file system. -/
def Local.none : Local := ⟨false, [], []⟩

section
variable (home : BlockNo → Prop) (ok : (e : X.Op) → X.Res e → Prop)

/-- The discipline, from the local state `l`, with `Q` at the end.  Answers of the
other operations are those that satisfy `ok`. -/
def Disc {α : Type} : Prog (callSig X) α → (α → Local → Prop) → Local → Prop
  | .ret a, Q, l => Q a l
  | .op (.bread b) k, Q, l =>
    ∀ i : BufPtr, i ∉ l.held.map Prod.fst → Disc (k i) Q { l with held := (i, b) :: l.held }
  | .op (.getData i) k, Q, l => i ∈ l.held.map Prod.fst ∧ ∀ d : Block, Disc (k d) Q l
  | .op (.setData i _) k, Q, l =>
    l.inOp = true ∧ (∃ b, (i, b) ∈ l.held) ∧ Disc (k ()) Q { l with dirty := i :: l.dirty }
  | .op (.logWrite i) k, Q, l =>
    l.inOp = true ∧ (∃ b, (i, b) ∈ l.held ∧ home b) ∧
      Disc (k ()) Q { l with dirty := l.dirty.filter (· != i) }
  | .op (.brelse i) k, Q, l =>
    i ∈ l.held.map Prod.fst ∧ i ∉ l.dirty ∧ Disc (k ()) Q { l with held := dropBuf i l.held }
  | .op .beginOp k, Q, l => l.inOp = false ∧ Disc (k ()) Q { l with inOp := true }
  | .op .endOp k, Q, l => l.inOp = true ∧ l.held = [] ∧ Disc (k ()) Q { l with inOp := false }
  | .op (.panic _) _, _, _ => True
  | .op (.ext e) k, Q, l => ∀ r : X.Res e, ok e r → Disc (k r) Q l

/-- A system call that follows the discipline and leaves nothing behind. -/
def Disciplined (c : SysCall X) : Prop :=
  Disc home ok c (fun _ l => l.inOp = false ∧ l.held = []) Local.none

variable {home ok}

end

/-! ## The discipline meets the obligations -/

/-- The state agrees with what the process believes to have. -/
structure Matches {M : Type} (p : Fin N) (l : Local) (s : Sys N M) : Prop where
  has : Has p l.held s
  op : (s.op p).isSome = l.inOp
  owner : s.owner ≠ some p
  booted : s.booted = true
  dirty : ∀ i ∈ l.held.map Prod.fst, (s.buf i).dirty = true → i ∈ l.dirty

section
variable {M : Type} {p : Fin N} {l : Local} {s t : Sys N M} {hs : List (BufPtr × BlockNo)}

/-- A call that keeps some of what the process holds. -/
theorem Matches.keep_of {m : List BufPtr} (h : Matches p l s) (hK : Keep p m s t)
    (hH : Has p hs t) {ds : List BufPtr} (hd : ∀ i ∈ hs.map Prod.fst, (t.buf i).dirty = true →
      i ∈ ds ∨ i ∈ m ∧ i ∈ l.held.map Prod.fst) (hds : l.dirty ⊆ ds) :
    Matches p ⟨l.inOp, hs, ds⟩ t where
  has := hH
  op := by rw [hK.op]; exact h.op
  owner := fun ho => h.owner (hK.owner.mp ho)
  booted := hK.booted h.booted
  dirty i hi hdi := by
    rcases hd i hi hdi with hm | ⟨hm, hl⟩
    · exact hm
    · rw [(hK.bufs i hm ((h.has.lock i).mpr hl)).2.2.2.2] at hdi
      exact hds (h.dirty i hl hdi)

/-- A call that keeps what the process holds. -/
theorem Matches.keep (h : Matches p l s) (hK : Keep p (l.held.map Prod.fst) s t)
    (hH : Has p l.held t) : Matches p l t :=
  h.keep_of hK hH (fun _ hi _ => .inr ⟨hi, hi⟩) (List.Subset.refl _)

theorem Matches.rely (hB : Base s) (h : Matches p l s) (hr : Rely p s t) : Matches p l t :=
  h.keep (hr.keep hB _) (h.has.rely hr)

end

section
variable {L : Layout} {d₀ : BlockNo → Block} {strict : Prop} {home : BlockNo → Prop}
variable {ok : (e : X.Op) → X.Res e → Prop} {p : Fin N}

variable {l : Local} {s : Sys N X.Mem} {Q : Unit → Sys N X.Mem → Prop} {b : BlockNo} {i : BufPtr}

section
variable (hJ : Inv L d₀ strict s)
include hJ

section
variable (hM : Matches p l s)
include hM

theorem wp_call_bread {Q : BufPtr → Sys N X.Mem → Prop}
    (hQ : ∀ i t, i ∉ l.held.map Prod.fst → Inv L d₀ strict t →
      Matches p { l with held := (i, b) :: l.held } t → Q i t) :
    (rules L d₀ strict ok).WP p (bread b) Q s := by
  refine wp_bread hJ hM.has (.inl hM.booted) fun i t hJt hK hH hd => ?_
  refine hQ i t (nodup_cons.mp hH.nodup).1 hJt
    (hM.keep_of hK hH (fun j hj hdj => ?_) (List.Subset.refl _))
  rcases mem_cons.mp hj with rfl | hj
  · rw [hd] at hdj; cases hdj
  · exact .inr ⟨hj, hj⟩

theorem wp_call_setData {d : Block} (hop : l.inOp = true) (hi : (i, b) ∈ l.held)
    (hQ : ∀ t, Inv L d₀ strict t → Matches p { l with dirty := i :: l.dirty } t → Q () t) :
    (rules L d₀ strict ok).WP p (Prim.setData i d) Q s := by
  refine wp_setData hJ hM.has hi (.inl (hM.op.trans hop)) fun t hJt hK hH _ _ => ?_
  refine hQ t hJt (hM.keep_of hK hH (fun j hj _ => ?_) (subset_cons_self ..))
  by_cases hji : j = i
  · subst hji; exact .inl mem_cons_self
  · refine .inr ⟨?_, hj⟩
    rw [map_dropBuf hM.has.nodup]; exact (mem_erase_of_ne hji).mpr hj

theorem wp_call_logWrite (hop : l.inOp = true) (hi : (i, b) ∈ l.held) (hh : strict → L.Home b)
    (hQ : ∀ t, Inv L d₀ strict t →
      Matches p { l with dirty := l.dirty.filter (· != i) } t → Q () t) :
    (rules L d₀ strict ok).WP p (Prim.logWrite i) Q s := by
  intro s1 hJ1 hr
  have hM1 := hM.rely hJ.base hr
  refine ⟨⟨hM1.op.trans hop, hM1.has.locked hi, hM1.has.valid _ hi, fun hst => ?_⟩,
    fun _ t hp hJt => ?_⟩
  · rw [hM1.has.key _ hi]; exact hh hst
  have hp := perform_of_rules hp
  have hp : logWrite L p i s1 = (some (), t) :=
    Option.some.inj ((if_neg (perform_alive hp)).symm.trans hp)
  have hlogged : ∀ x : Buf N, x.lock = (s1.buf i).lock → x.blockno = (s1.buf i).blockno →
      x.valid = (s1.buf i).valid → x.dirty = false →
      Matches p { l with dirty := l.dirty.filter (· != i) } (s1.setBuf i x) := by
    intro x hl hno hv hd
    refine ⟨hM1.has.poke hl hno (hv ▸ id), hM1.op, hM1.owner, hM1.booted, ?_⟩
    refine (forall_update_iff s1.buf fun j y => j ∈ l.held.map Prod.fst → y.dirty = true →
      j ∈ l.dirty.filter (· != i)).mpr ⟨fun _ h => ?_, fun j hji hj h => ?_⟩
    · rw [hd] at h; cases h
    · simp [hM1.dirty j hj h, hji]
  rcases logWrite_cases L p i s1 with ⟨msg, he⟩ | ⟨-, he⟩ | ⟨-, -, he⟩ <;> rw [he] at hp
  · cases hp
  · obtain ⟨-, rfl⟩ := Prod.mk.inj hp
    have h := hlogged { s1.buf i with dirty := false } rfl rfl rfl rfl
    exact hQ _ hJt { h with has := { h.has with } }
  · obtain ⟨-, rfl⟩ := Prod.mk.inj hp
    have h := hlogged { s1.buf i with refcnt := (s1.buf i).refcnt + 1, dirty := false } rfl rfl rfl
      rfl
    exact hQ _ hJt { h with has := { h.has with } }

theorem wp_call_brelse (hi : i ∈ l.held.map Prod.fst) (hd : i ∉ l.dirty)
    (hQ : ∀ t, Inv L d₀ strict t → Matches p { l with held := dropBuf i l.held } t → Q () t) :
    (rules L d₀ strict ok).WP p (brelse i) Q s := by
  have hdi : (s.buf i).dirty = false := by
    by_contra hc
    exact hd (hM.dirty i hi (by simpa using hc))
  refine wp_brelse hJ hM.has hi hdi fun t hJt hK hH => ?_
  refine hQ t hJt (hM.keep_of hK hH (fun j hj _ => .inr ⟨hj, ?_⟩) (List.Subset.refl _))
  rw [map_dropBuf hM.has.nodup] at hj
  exact mem_of_mem_erase hj

theorem wp_call_beginOp (hop : l.inOp = false)
    (hQ : ∀ t, Inv L d₀ strict t → Matches p { l with inOp := true } t → Q () t) :
    (rules L d₀ strict ok).WP p Prim.beginOp Q s := by
  intro s1 hJ1 hr
  have hM1 := hM.rely hJ.base hr
  have hnone : s1.op p = none := by
    have := hM1.op
    rw [hop] at this
    simpa using this
  refine ⟨⟨hM1.booted, hnone, hM1.owner⟩, fun _ t hp hJt => ?_⟩
  have hp := perform_of_rules hp
  unfold perform at hp
  split at hp
  · cases hp
  · simp only at hp
    split_ifs at hp
    simp only [beginOp] at hp
    split at hp
    · cases hp
    · cases hp
      refine hQ _ hJt ⟨{ hM1.has with }, ?_, hM1.owner, hM1.booted, hM1.dirty⟩
      show (Function.update s1.op p (some s1.nextop) p).isSome = true
      rw [update_self]; rfl

end

end

/-- **A disciplined program meets every obligation of the log system.** -/
theorem wp_compile (hhome : ∀ b, home b → strict → L.Home b) {c : SysCall X}
    (hc : Disc home ok c (fun _ l => l.inOp = false ∧ l.held = []) l) (hJ : Inv L d₀ strict s)
    (hM : Matches p l s) : (rules L d₀ strict ok).WP p (compile L c) (fun _ => Idle p) s := by
  -- along the program; each call hands its local state to the rest
  induction c generalizing l s with
  | ret a =>
    obtain ⟨hop, hheld⟩ := hc
    have hH := hM.has
    rw [hheld] at hH
    refine ⟨hH, ?_, hM.owner⟩
    have := hM.op
    rw [hop] at this
    simpa using this
  | op o k ih =>
    cases o with
    | bread b =>
      exact Rules.WP.bind (wp_call_bread hJ hM fun i t hi hJt hMt => ih i (hc i hi) hJt hMt)
    | getData i =>
      exact Rules.WP.bind (wp_getData hJ hM.has hc.1 fun t hJt hK hH =>
        ih _ (hc.2 _) hJt (hM.keep hK hH))
    | setData i d =>
      obtain ⟨hop, ⟨b, hb⟩, hk⟩ := hc
      exact Rules.WP.bind (wp_call_setData hJ hM hop hb fun t hJt hMt => ih () hk hJt hMt)
    | logWrite i =>
      obtain ⟨hop, ⟨b, hb, hh⟩, hk⟩ := hc
      exact Rules.WP.bind (wp_call_logWrite hJ hM hop hb (hhome b hh) fun t hJt hMt =>
        ih () hk hJt hMt)
    | brelse i =>
      obtain ⟨hi, hd, hk⟩ := hc
      exact Rules.WP.bind (wp_call_brelse hJ hM hi hd fun t hJt hMt => ih () hk hJt hMt)
    | beginOp =>
      exact Rules.WP.bind (wp_call_beginOp hJ hM hc.1 fun t hJt hMt => ih () hc.2 hJt hMt)
    | endOp =>
      obtain ⟨hop, hheld, hk⟩ := hc
      have hH := hM.has
      rw [hheld] at hH
      refine Rules.WP.bind (wp_endOp hH (hM.op.trans hop) fun t hJt hb hI =>
        ih () hk hJt ⟨?_, ?_, hI.owner, hb, fun i hi => ?_⟩)
      · show Has p l.held t
        rw [hheld]; exact hI.has
      · rw [hI.op]; rfl
      · rw [show l.held = [] from hheld] at hi; cases hi
    | panic msg => exact fun _ _ _ => ⟨trivial, fun r => r.elim⟩
    | ext e =>
      intro s1 hJ1 hr
      refine ⟨trivial, fun r t hp hJt => ?_⟩
      have hok : ok e r := answers_of_rules hp
      have hp := perform_of_rules hp
      unfold perform at hp
      split at hp
      · cases hp
      · obtain ⟨⟨r', m⟩, -, hx⟩ := Option.map_eq_some_iff.mp hp
        have hM1 := hM.rely hJ.base hr
        obtain ⟨h1, rfl⟩ := Prod.mk.inj hx
        refine ih r (hc r hok) hJt ⟨{ hM1.has with }, hM1.op, hM1.owner, hM1.booted, hM1.dirty⟩

end

end Xv6.Log
