/-
# `Xv6.Log.Rules` — the proof rules of the log system

`rules` puts the invariant, the rely and the obligations together with the
operations; `obeys` is what `Xv6.Lib.RelyGuarantee` asks for.  The answers of the
kernel's other operations may be restricted to those that satisfy `ok`.
-/
import Xv6.Log.Ops

namespace Xv6.Log

open Machine Function

variable {N : Nat} {X : Ext N} {L : Layout} {d₀ : BlockNo → Block} {strict : Prop}

/-- The answer `r` to `o` is one of those considered. -/
def Answers (ok : (e : X.Op) → X.Res e → Prop) : (o : Op X.Op) → Op.Res (X := X) o → Prop
  | .ext e, r => ok e r
  | _, _ => True

open Classical in
noncomputable def rules (L : Layout) (d₀ : BlockNo → Block) (strict : Prop)
    (ok : (e : X.Op) → X.Res e → Prop) : Rules (Fin N) (Sys N X.Mem) (sig X) where
  J := Inv L d₀ strict
  Rely := Rely
  Pre := Pre L d₀ strict
  perform p o s :=
    if ∀ r t, perform L X p o s = some (some r, t) → Answers ok o r then perform L X p o s else none

variable {p q : Fin N} {s t : Sys N X.Mem} {o : Op X.Op} {M : Type}

theorem perform_of_rules {ok : (e : X.Op) → X.Res e → Prop}
    {a : Option (Op.Res (X := X) o)} (h : (rules L d₀ strict ok).perform p o s = some (a, t)) :
    perform L X p o s = some (a, t) := by
  simp only [rules] at h
  split_ifs at h
  exact h

/-- Nothing is performed after a panic. -/
theorem perform_alive {x : Option (Op.Res (X := X) o) × Sys N X.Mem}
    (h : perform L X p o s = some x) : ¬ s.panicked.isSome = true :=
  fun hs => nomatch (if_pos hs).symm.trans h

/-- An operation that answers has done what `perform` says. -/
theorem answer_of_rules {ok : (e : X.Op) → X.Res e → Prop} {r r' : Op.Res (X := X) o}
    {u : Sys N X.Mem} (h : (rules L d₀ strict ok).perform p o s = some (some r, t))
    (he : ¬ s.panicked.isSome = true → perform L X p o s = some (some r', u)) : r = r' ∧ t = u := by
  have hp := perform_of_rules h
  rw [he (perform_alive hp)] at hp
  obtain ⟨h₁, h₂⟩ := Prod.mk.inj (Option.some.inj hp)
  exact ⟨(Option.some.inj h₁).symm, h₂.symm⟩

theorem answers_of_rules {ok : (e : X.Op) → X.Res e → Prop} {r : Op.Res (X := X) o}
    (h : (rules L d₀ strict ok).perform p o s = some (some r, t)) : Answers ok o r := by
  have hp := perform_of_rules h
  simp only [rules] at h
  split_ifs at h with hall
  exact hall r t hp

theorem Rely.ofEq {s t : Sys N M} (hbuf : t.buf = s.buf) (hrefs : t.refs q = s.refs q)
    (hop : t.op q = s.op q) (hb : s.booted = true → t.booted = true)
    (ho : t.owner = some q ↔ s.owner = some q)
    (hown : s.owner = some q → t.disk = s.disk ∧ t.lh = s.lh ∧ t.pins = s.pins ∧
      t.pending = s.pending ∧ t.committed = s.committed ∧ t.booted = s.booted) : Rely q s t where
  refs := hrefs
  op := hop
  booted := hb
  key _ _ := by rw [hbuf]
  lock _ := by rw [hbuf]
  held _ _ := by rw [hbuf]; exact ⟨rfl, rfl, rfl⟩
  owner := ho
  owned := hown
  pinKey _ _ _ := by rw [hbuf]

/-- No other process can own the disk. -/
theorem not_owner {s : Sys N M} (hq : q ≠ p) (ho : s.owner = some p) : s.owner ≠ some q := by
  rw [ho]; exact fun h => hq (Option.some.inj h).symm

theorem rely_diskWrite {s : Sys N M} {i : BufPtr} (hq : q ≠ p)
    (hl : (s.buf i).lock = some p) (ho : s.owner = some p) : Rely q s (diskWrite L i s) := by
  have hlq : (s.buf i).lock ≠ some q := by
    rw [hl]; exact fun h => hq (Option.some.inj h).symm
  have hpoke : Rely q s (s.setBuf i { s.buf i with dirty := false }) := Rely.poke (fun _ => rfl) hlq hlq
  have hno : ∀ {t : Prop}, s.owner = some q → t := fun h => absurd h (not_owner hq ho)
  rw [diskWrite_eq]
  split
  · exact { hpoke with owned := hno, pinKey := hno }
  · exact { hpoke with owned := hno, pinKey := hno }

theorem rely_endOp {s : Sys N M} (hB : Base s) (hq : q ≠ p ∨ (endOp p s).1 = none)
    (hop : (s.op p).isSome = true) : Rely q s (endOp p s).2 := by
  have ho := hB.owner_none hop
  have hno : ∀ {t : Prop}, s.owner = some q → t := fun h => by rw [ho] at h; cases h
  rcases endOp_cases hB.toTurns hop with ⟨he, -⟩ | ⟨he, -⟩ <;> rw [he] at hq ⊢
  · have hqp := hq.resolve_right (by simp)
    refine Rely.ofEq rfl rfl (update_of_ne hqp ..) id ⟨fun h => ?_, hno⟩ hno
    exact absurd (Option.some.inj h).symm hqp
  · have hqp := hq.resolve_right (by simp)
    exact Rely.ofEq rfl rfl (update_of_ne hqp ..) id Iff.rfl hno

/-- **Every operation under its obligation keeps the invariant and disturbs
nobody else.** -/
theorem perform_keeps {a : Option (Op.Res (X := X) o)} (h : Inv L d₀ strict s)
    (hpre : Pre L d₀ strict p o s) (hp : perform L X p o s = some (a, t)) :
    Inv L d₀ strict t ∧ ∀ q, q ≠ p ∨ a = none → Rely q s t := by
  unfold perform at hp
  split at hp
  · cases hp
  · cases o with
    | bget b =>
      obtain ⟨rfl, rfl⟩ := Prod.mk.inj (Option.some.inj hp)
      exact ⟨inv_bget h hpre, fun q hq => rely_bget h.base hq⟩
    | acquiresleep i =>
      simp only at hp
      split_ifs at hp with hfree
      cases hp
      have hnone : (s.buf i).lock = none := by simpa using hfree
      refine ⟨inv_acquiresleep h hpre (by simpa using hfree), fun q hq => ?_⟩
      have hqp := hq.resolve_right (by simp)
      exact Rely.poke (fun _ => rfl) (fun he => hqp (Option.some.inj he).symm) (by rw [hnone]; simp)
    | valid i | getData i | getLh =>
      cases hp
      exact ⟨h, fun q _ => Rely.refl q s⟩
    | diskRead i =>
      cases hp
      refine ⟨inv_diskRead h hpre.1 hpre.2, fun q hq => ?_⟩
      have hlq : (s.buf i).lock ≠ some q := by
        rw [hpre.1]; exact fun he => (hq.resolve_right (by simp)) (Option.some.inj he).symm
      exact Rely.poke (fun _ => rfl) hlq hlq
    | setData i d =>
      cases hp
      refine ⟨inv_setData h hpre.1 hpre.2.1 hpre.2.2 d, fun q hq => ?_⟩
      have hlq : (s.buf i).lock ≠ some q := by
        rw [hpre.1]; exact fun he => (hq.resolve_right (by simp)) (Option.some.inj he).symm
      exact Rely.poke (fun _ => rfl) hlq hlq
    | diskWrite i =>
      obtain ⟨hl, hv, ho, hs⟩ := hpre
      simp only [hl, if_true] at hp
      cases hp
      exact ⟨inv_diskWrite h hl ho hs,
        fun q hq => rely_diskWrite (hq.resolve_right (by simp)) hl ho⟩
    | releasesleep i =>
      obtain ⟨hl, hd⟩ := hpre
      simp only [hl, if_true] at hp
      cases hp
      refine ⟨inv_releasesleep h hl hd, fun q hq => Rely.poke (fun _ => rfl) (by simp) ?_⟩
      rw [hl]; exact fun he => (hq.resolve_right (by simp)) (Option.some.inj he).symm
    | deref i =>
      cases hp
      exact ⟨inv_deref h hpre.1 hpre.2, fun q hq => rely_deref (hq.resolve_right (by simp))⟩
    | bunpin i =>
      obtain ⟨ho, hi, hl, hdt, hd, hs⟩ := hpre
      cases hp
      exact ⟨inv_bunpin h ho hi hd hs, fun q hq => rely_bunpin (hq.resolve_right (by simp)) ho⟩
    | beginOp =>
      obtain ⟨hb, hop, ho⟩ := hpre
      split_ifs at hp
      simp only [beginOp] at hp
      split at hp
      · cases hp
        exact ⟨⟨{ h.base with }, fun hs => { h.durable hs with }⟩, fun q _ =>
          Rely.ofEq rfl rfl rfl id Iff.rfl fun _ => ⟨rfl, rfl, rfl, rfl, rfl, rfl⟩⟩
      · rename_i hgo
        cases hp
        refine ⟨inv_beginOp h hb hop hgo, fun q hq => ?_⟩
        have hqp := hq.resolve_right (by simp)
        exact Rely.ofEq rfl rfl (update_of_ne hqp ..) id Iff.rfl
          fun _ => ⟨rfl, rfl, rfl, rfl, rfl, rfl⟩
    | logWrite i =>
      obtain ⟨hop, hl, hv, hh⟩ := hpre
      obtain ⟨rfl, rfl⟩ := Prod.mk.inj (Option.some.inj hp)
      exact ⟨inv_logWrite h hop hl hv hh, fun q hq => rely_logWrite h.base hq hop hl⟩
    | endOp =>
      obtain ⟨rfl, rfl⟩ := Prod.mk.inj (Option.some.inj hp)
      exact ⟨inv_endOp h hpre.1 hpre.2, fun q hq => rely_endOp h.base hq hpre.1⟩
    | endCommit =>
      obtain ⟨ho, hb, hlh, hpins, hcl, hs⟩ := hpre
      cases hp
      refine ⟨inv_wakeupLog (inv_disown h ho hlh hpins hcl rfl hb hs), fun q hq => ?_⟩
      have hno := not_owner (hq.resolve_right (by simp)) ho
      exact Rely.ofEq rfl rfl rfl id ⟨nofun, fun he => absurd he hno⟩
        fun he => absurd he hno
    | setLh lh =>
      obtain ⟨ho, hpins, hb, hs⟩ := hpre
      cases hp
      refine ⟨inv_setLh h ho hpins hs, fun q hq => ?_⟩
      have hno := not_owner (hq.resolve_right (by simp)) ho
      exact Rely.ofEq rfl rfl rfl id Iff.rfl fun he => absurd he hno
    | boot =>
      obtain ⟨ho, hb, hlh, hpins, hcl, hs⟩ := hpre
      cases hp
      have hc : s.committing = false := by
        by_contra hc
        have := (h.base.committing.mp (by simpa using hc)).2
        rw [hb] at this; cases this
      refine ⟨inv_disown h ho hlh hpins hcl hc rfl hs, fun q hq => ?_⟩
      have hno := not_owner (hq.resolve_right (by simp)) ho
      exact Rely.ofEq rfl rfl rfl (fun _ => rfl) ⟨nofun, fun he => absurd he hno⟩
        fun he => absurd he hno
    | panic msg =>
      cases hp
      exact ⟨h.panic (α := Empty), fun q _ => Rely.panic (α := Empty)⟩
    | ext e =>
      obtain ⟨⟨r, m⟩, -, hx⟩ := Option.map_eq_some_iff.mp hp
      obtain ⟨rfl, rfl⟩ := hx
      exact ⟨⟨{ h.base with }, fun hs => { h.durable hs with }⟩, fun q _ =>
        Rely.ofEq rfl rfl rfl id Iff.rfl fun _ => ⟨rfl, rfl, rfl, rfl, rfl, rfl⟩⟩

theorem obeys (ok : (e : X.Op) → X.Res e → Prop) : (rules L d₀ strict ok).Obeys where
  refl := Rely.refl
  trans _ _ _ _ := Rely.trans
  keeps _ _ _ _ _ hJ hpre hp := perform_keeps hJ hpre (perform_of_rules hp)

end Xv6.Log
