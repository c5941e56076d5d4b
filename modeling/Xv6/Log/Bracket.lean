/-
# `Xv6.Log.Bracket` — operations bracketed by `begin_op` and `end_op`

The smallest verification of the log's code: it follows who is in an operation and
who commits, and nothing else.  A system call may do anything to buffers; it has
to pair `begin_op` with `end_op` and to call `log_write` in between.
-/
import Xv6.Log.Turns

namespace Xv6.Log

open Machine Function

variable {N : Nat} {X : Ext N} {L : Layout} {p : Fin N}

/-! ## Bracketed system calls -/

/-- From inside (`true`) or outside (`false`) an operation, the program pairs
`begin_op` with `end_op`, logs inside only, and ends outside. -/
def Brackets : SysCall X → Bool → Prop
  | .ret _, inOp => inOp = false
  | .op (.bread _) k, inOp => ∀ i : BufPtr, Brackets (k i) inOp
  | .op (.getData _) k, inOp => ∀ d : Block, Brackets (k d) inOp
  | .op (.setData _ _) k, inOp => Brackets (k ()) inOp
  | .op (.logWrite _) k, inOp => inOp = true ∧ Brackets (k ()) inOp
  | .op (.brelse _) k, inOp => Brackets (k ()) inOp
  | .op .beginOp k, inOp => inOp = false ∧ Brackets (k ()) true
  | .op .endOp k, inOp => inOp = true ∧ Brackets (k ()) false
  | .op (.panic _) _, _ => True
  | .op (.ext e) k, inOp => ∀ r : X.Res e, Brackets (k r) inOp

def Bracketed (c : SysCall X) : Prop := Brackets c false

/-! ## Rely and obligations -/

/-- What the others leave alone, as `p` sees it. -/
structure Yields (p : Fin N) (v w : Turn N) : Prop where
  op : w.op p = v.op p
  booted : v.booted = true → w.booted = true
  owner : w.owner = some p ↔ v.owner = some p
  owned : v.owner = some p → w.lh = v.lh ∧ w.booted = v.booted

theorem Yields.refl (p : Fin N) (v : Turn N) : Yields p v v :=
  ⟨rfl, id, Iff.rfl, fun _ => ⟨rfl, rfl⟩⟩

variable {v w : Turn N}

theorem Yields.trans {x : Turn N} (h1 : Yields p v w) (h2 : Yields p w x) : Yields p v x where
  op := h2.op.trans h1.op
  booted h := h2.booted (h1.booted h)
  owner := h2.owner.trans h1.owner
  owned h := by
    obtain ⟨a1, b1⟩ := h1.owned h
    obtain ⟨a2, b2⟩ := h2.owned (h1.owner.mpr h)
    exact ⟨a2.trans a1, b2.trans b1⟩

def Due (p : Fin N) (o : Op X.Op) (s : Sys N X.Mem) : Prop :=
  match o with
  | .beginOp => s.booted = true ∧ s.op p = none ∧ s.owner ≠ some p
  | .logWrite _ => (s.op p).isSome = true
  | .endOp => (s.op p).isSome = true
  | .endCommit => s.owner = some p ∧ s.booted = true ∧ s.lh = []
  | .setLh lh => s.owner = some p ∧ (s.booted = true → lh = [])
  | .boot => s.owner = some p ∧ s.booted = false ∧ s.lh = []
  | _ => True

def turnRules (L : Layout) : Rules (Fin N) (Sys N X.Mem) (sig X) where
  J := Turns
  Rely p s t := Yields p s.turn t.turn
  Pre := Due
  perform := perform L X

theorem logWrite_turn {M : Type} (i : BufPtr) (s : Sys N M) :
    (∃ msg, logWrite L p i s = s.panic msg) ∨ ∃ t, logWrite L p i s = (some (), t) ∧
      t.turn = { s.turn with
        lh := if (s.buf i).blockno ∈ s.lh then s.lh else s.lh ++ [(s.buf i).blockno]
        group := s.group ++ [((s.op p).getD 0, (s.buf i).blockno)] } := by
  unfold logWrite
  simp only
  split
  · exact .inl ⟨_, rfl⟩
  · split
    · exact .inl ⟨_, rfl⟩
    · split <;> exact .inr ⟨_, rfl, rfl⟩

variable {q : Fin N}

/-- Nobody else owns the log. -/
theorem Yields.ofOwner (hq : q ≠ p) (ho : v.owner = some p)
    (hop : w.op q = v.op q) (hb : v.booted = true → w.booted = true)
    (hw : w.owner = none ∨ w.owner = some p) : Yields q v w := by
  have hno : v.owner ≠ some q := by
    rw [ho]; exact fun h => hq (Option.some.inj h).symm
  refine ⟨hop, hb, ⟨fun h => ?_, fun h => absurd h hno⟩, fun h => absurd h hno⟩
  rcases hw with hw | hw
  · rw [hw] at h; cases h
  · rw [hw] at h; exact absurd (Option.some.inj h).symm hq

/-- Nobody owns the log before. -/
theorem Yields.ofNone (ho : v.owner = none)
    (hop : w.op q = v.op q) (hb : v.booted = true → w.booted = true)
    (hw : w.owner ≠ some q) : Yields q v w := by
  have hno : v.owner ≠ some q := by rw [ho]; exact nofun
  exact ⟨hop, hb, ⟨fun h => absurd h hw, fun h => absurd h hno⟩, fun h => absurd h hno⟩

variable {s : Sys N X.Mem} {lh : List BlockNo} {b inOp : Bool}

theorem turn_keeps {o : Op X.Op} {t : Sys N X.Mem} {a : Option (Op.Res (X := X) o)} (h : Turns s)
    (hdue : Due p o s) (hp : perform L X p o s = some (a, t)) :
    Turns t ∧ ∀ q, q ≠ p ∨ a = none → Yields q s.turn t.turn := by
  by_cases hn : o.Neutral
  · have he := (turn_of_neutral hn hp).1
    exact ⟨h.congr he, fun q _ => he ▸ Yields.refl q s.turn⟩
  unfold perform at hp
  split at hp
  · cases hp
  cases o with
  | beginOp =>
    obtain ⟨hb, hop, -⟩ := hdue
    simp only at hp
    split at hp
    · cases hp
    have he : beginOp p s = (a, t) := Option.some.inj hp
    unfold beginOp at he
    split at he
    · cases he
      exact ⟨h.congr rfl, fun q _ => Yields.refl q s.turn⟩
    · rename_i hgo
      cases he
      refine ⟨h.beginOp hb hop fun hc => hgo (.inl hc), fun q hq => ?_⟩
      have hqp := hq.resolve_right (by simp)
      exact ⟨update_of_ne hqp .., id, Iff.rfl, fun _ => ⟨rfl, rfl⟩⟩
  | logWrite i =>
    have he : logWrite L p i s = (a, t) := Option.some.inj hp
    have ho : s.owner = none := h.owner_none hdue
    have hno : ∀ q, s.owner ≠ some q := fun q hq => by rw [ho] at hq; cases hq
    rcases logWrite_turn i s with ⟨msg, hw⟩ | ⟨u, hw, hu⟩ <;> rw [hw] at he <;> cases he
    · exact ⟨h.congr rfl, fun q _ => Yields.refl q s.turn⟩
    · have hT : Turns { s with lh := t.lh, group := t.group } := { h with }
      refine ⟨hT.congr ?_, fun q _ => ?_⟩
      · rw [show t.lh = t.turn.lh from rfl, show t.group = t.turn.group from rfl, hu]; rfl
      · rw [hu]
        exact ⟨rfl, id, Iff.rfl, fun hq => absurd hq (hno q)⟩
  | endOp =>
    have he : endOp p s = (a, t) := Option.some.inj hp
    have ho : s.owner = none := h.owner_none hdue
    have hL := h.leaveOp hdue
    rcases endOp_cases h hdue with ⟨hw, h0⟩ | ⟨hw, -⟩ <;> rw [hw] at he <;> cases he
    · refine ⟨hL.own (h.booted_of_op hdue) (hL.op_of_outstanding h0), fun q hq => ?_⟩
      have hqp := hq.resolve_right (by simp)
      exact Yields.ofNone ho (update_of_ne hqp ..) id
        fun hq' => hqp (Option.some.inj hq').symm
    · refine ⟨hL.congr rfl, fun q hq => ?_⟩
      have hqp := hq.resolve_right (by simp)
      exact ⟨update_of_ne hqp .., id, Iff.rfl, fun _ => ⟨rfl, rfl⟩⟩
  | endCommit =>
    obtain ⟨ho, hb, -⟩ := hdue
    cases hp
    refine ⟨(h.disown ho rfl).congr rfl, fun q hq => ?_⟩
    exact Yields.ofOwner (hq.resolve_right (by simp)) ho rfl id (.inl rfl)
  | setLh lh =>
    cases hp
    refine ⟨{ h with }, fun q hq => ?_⟩
    exact Yields.ofOwner (hq.resolve_right (by simp)) hdue.1 rfl id (.inr hdue.1)
  | boot =>
    obtain ⟨ho, hb, -⟩ := hdue
    cases hp
    have hc : s.committing = false := by
      cases hc : s.committing with
      | false => rfl
      | true =>
        have := (h.committing.mp hc).2
        rw [hb] at this; cases this
    refine ⟨h.disown ho hc, fun q hq => ?_⟩
    exact Yields.ofOwner (hq.resolve_right (by simp)) ho rfl (fun _ => rfl) (.inl rfl)
  | _ => exact absurd trivial hn

theorem turn_obeys : (turnRules (X := X) L).Obeys where
  refl p s := Yields.refl p s.turn
  trans _ _ _ _ h1 h2 := h1.trans h2
  keeps _ _ _ _ _ h hdue hp := turn_keeps h hdue hp

/-! ## Programs that leave the turn alone -/

def Neutral {α : Type} : Prog (sig X) α → Prop
  | .ret _ => True
  | .op o k => o.Neutral ∧ ∀ r, Neutral (k r)

variable {α β : Type}

theorem Neutral.bind {m : Prog (sig X) α} {f : α → Prog (sig X) β} (hm : Neutral m)
    (hf : ∀ a, Neutral (f a)) : Neutral (m.bind f) := by
  induction m with
  | ret a => exact hf a
  | op o k ih => exact ⟨hm.1, fun r => ih r (hm.2 r)⟩

theorem neutral_bread (b : BlockNo) : Neutral (bread (X := X) b) := by
  refine ⟨trivial, fun i => ⟨trivial, fun _ => ⟨trivial, fun v => ?_⟩⟩⟩
  cases (v : Bool)
  · exact ⟨trivial, fun _ => trivial⟩
  · exact trivial

theorem neutral_brelse (i : BufPtr) : Neutral (brelse (X := X) i) :=
  ⟨trivial, fun _ => ⟨trivial, fun _ => trivial⟩⟩

theorem neutral_copyData (i j : BufPtr) : Neutral (copyData (X := X) i j) :=
  ⟨trivial, fun _ => ⟨trivial, fun _ => trivial⟩⟩

theorem neutral_bwrite (i : BufPtr) : Neutral (bwrite (X := X) i) := ⟨trivial, fun _ => trivial⟩

theorem neutral_installFrom (recovering : Bool) : ∀ (bs : List BlockNo) (tail : Nat),
    Neutral (installFrom (X := X) L recovering tail bs)
  | [], _ => trivial
  | b :: bs, tail => by
    refine (neutral_bread _).bind fun lbuf => (neutral_bread b).bind fun dbuf =>
      (neutral_copyData _ _).bind fun _ => (neutral_bwrite _).bind fun _ => ?_
    have hrest : Neutral ((brelse lbuf).bind fun _ => (brelse dbuf).bind fun _ =>
        installFrom L recovering (tail + 1) bs) :=
      (neutral_brelse _).bind fun _ => (neutral_brelse _).bind fun _ =>
        neutral_installFrom recovering bs (tail + 1)
    cases recovering
    · exact ⟨trivial, fun _ => hrest⟩
    · exact hrest

theorem neutral_writeLogFrom : ∀ (bs : List BlockNo) (tail : Nat),
    Neutral (writeLogFrom (X := X) L tail bs)
  | [], _ => trivial
  | b :: bs, tail =>
    (neutral_bread _).bind fun _ => (neutral_bread b).bind fun _ =>
      (neutral_copyData _ _).bind fun _ => (neutral_bwrite _).bind fun _ =>
        (neutral_brelse _).bind fun _ => (neutral_brelse _).bind fun _ =>
          neutral_writeLogFrom bs (tail + 1)

theorem neutral_writeHead : Neutral (writeHead (X := X) L) :=
  (neutral_bread _).bind fun _ => ⟨trivial, fun _ => ⟨trivial, fun _ => ⟨trivial, fun _ =>
    (neutral_bwrite _).bind fun _ => neutral_brelse _⟩⟩⟩

theorem neutral_installTrans (recovering : Bool) :
    Neutral (installTrans (X := X) L recovering) :=
  ⟨trivial, fun lh => neutral_installFrom recovering lh 0⟩

theorem neutral_writeLog : Neutral (writeLog (X := X) L) :=
  ⟨trivial, fun lh => neutral_writeLogFrom lh 0⟩

/-- A program that leaves the turn alone keeps what its process knows of it. -/
theorem wp_neutral {m : Prog (sig X) α} {f : α → Prog (sig X) β}
    {Q : β → Sys N X.Mem → Prop} {A : Turn N → Prop} (hm : Neutral m)
    (hst : ∀ v w, Yields p v w → A v → A w) (hA : A s.turn) (hJ : Turns s)
    (hf : ∀ a t, Turns t → A t.turn → (turnRules L).WP p (f a) Q t) :
    (turnRules L).WP p (m.bind f) Q s := by
  induction m generalizing s with
  | ret a => exact hf a s hJ hA
  | op o k ih =>
    intro s' hJ' hr
    have hA' : A s'.turn := hst _ _ hr hA
    refine ⟨?_, fun r t hp hJt => ?_⟩
    · have hn := hm.1
      cases o <;> trivial
    · have he : t.turn = s'.turn := (turn_of_neutral hm.1 hp).1
      exact ih r (hm.2 r) (he ▸ hA') hJt

/-! ## Commit and recovery -/

/-- `p` commits or recovers, and the header is `lh`. -/
def Commits (p : Fin N) (lh : List BlockNo) (b : Bool) (v : Turn N) : Prop :=
  v.owner = some p ∧ v.lh = lh ∧ v.booted = b

theorem Commits.yields (v w : Turn N) (hr : Yields p v w) (h : Commits p lh b v) :
    Commits p lh b w := by
  obtain ⟨ho, hlh, hb⟩ := h
  obtain ⟨hl, hbt⟩ := hr.owned ho
  exact ⟨hr.owner.mpr ho, hl.trans hlh, hbt.trans hb⟩

theorem wp_turn_setLh {lh' : List BlockNo} {k : Unit → Prog (sig X) α}
    {Q : α → Sys N X.Mem → Prop} (hC : Commits p lh b s.turn) (hb : b = true → lh' = [])
    (hk : ∀ t, Turns t → Commits p lh' b t.turn → (turnRules L).WP p (k ()) Q t) :
    (turnRules L).WP p (.op (.setLh lh') k) Q s := by
  intro s' hJ' hr
  obtain ⟨ho, -, hbt⟩ := Commits.yields _ _ hr hC
  refine ⟨⟨ho, fun h => hb (hbt ▸ h)⟩, fun r t hp hJt => hk t hJt ?_⟩
  simp only [turnRules, perform] at hp
  split_ifs at hp
  cases hp; exact ⟨ho, rfl, hbt⟩

/-- The end of a commit and of the recovery: the header is emptied. -/
theorem wp_turn_clear {k : Unit → Prog (sig X) α} {Q : α → Sys N X.Mem → Prop}
    (hC : Commits p lh b s.turn)
    (hk : ∀ t, Turns t → Commits p [] b t.turn → (turnRules L).WP p (k ()) Q t) :
    (turnRules L).WP p ((Prim.setLh (X := X) []).bind fun _ => (writeHead L).bind k) Q s :=
  wp_turn_setLh hC (fun _ => rfl) fun _ hJ1 hC1 =>
    wp_neutral (m := writeHead L) neutral_writeHead Commits.yields hC1 hJ1 fun _ => hk

theorem wp_turn_commit {k : Unit → Prog (sig X) α} {Q : α → Sys N X.Mem → Prop}
    (hC : Commits p lh true s.turn)
    (hk : ∀ t, Turns t → Commits p [] true t.turn → (turnRules L).WP p (k ()) Q t) :
    (turnRules L).WP p ((commit L).bind k) Q s := by
  intro s' hJ' hr
  have hC' := Commits.yields _ _ hr hC
  refine ⟨trivial, fun r t hp hJt => ?_⟩
  obtain ⟨rfl, rfl⟩ : r = s'.lh ∧ t = s' := by
    simp only [turnRules, perform] at hp
    split_ifs at hp
    cases hp; exact ⟨rfl, rfl⟩
  show (turnRules L).WP p ((if 0 < t.lh.length then _ else _ : Prog (sig X) Unit).bind k) Q t
  split
  · simp only [Prog.bind_def, Prog.bind_assoc]
    refine wp_neutral neutral_writeLog Commits.yields hC' hJt fun _ t1 hJ1 hC1 => ?_
    refine wp_neutral neutral_writeHead Commits.yields hC1 hJ1 fun _ t2 hJ2 hC2 => ?_
    refine wp_neutral (neutral_installTrans _) Commits.yields hC2 hJ2 fun _ t3 hJ3 hC3 => ?_
    exact wp_turn_clear hC3 hk
  · rename_i h0
    have hnil : t.lh = [] := List.length_eq_zero_iff.mp (by omega)
    exact hk t hJt ⟨hC'.1, hnil, hC'.2.2⟩

/-! ## System calls -/

/-- `p` runs a system call, inside or outside of an operation. -/
def Within (p : Fin N) (inOp : Bool) (v : Turn N) : Prop :=
  v.booted = true ∧ v.owner ≠ some p ∧ (v.op p).isSome = inOp

theorem Within.yields (v w : Turn N) (hr : Yields p v w) (h : Within p inOp v) : Within p inOp w :=
  ⟨hr.booted h.1, fun ho => h.2.1 (hr.owner.mp ho), by rw [hr.op]; exact h.2.2⟩

theorem Within.op_none (h : Within p false v) : v.op p = none := by
  simpa using h.2.2

/-- What a process leaves behind that has returned. -/
def Returned (p : Fin N) (s : Sys N X.Mem) : Prop := s.op p = none ∧ s.owner ≠ some p

theorem wp_turn_endOp {k : Unit → Prog (sig X) α} {Q : α → Sys N X.Mem → Prop}
    (hW : Within p true s.turn)
    (hk : ∀ t, Turns t → Within p false t.turn → (turnRules L).WP p (k ()) Q t) :
    (turnRules L).WP p ((endOpCode L).bind k) Q s := by
  intro s' hJ' hr
  obtain ⟨hb, hno, hop⟩ := Within.yields _ _ hr hW
  refine ⟨hop, fun r t hp hJt => ?_⟩
  have he : endOp p s' = (some r, t) := by
    simp only [turnRules, perform] at hp
    split_ifs at hp
    exact Option.some.inj hp
  rcases endOp_cases hJ' hop with ⟨hw, -⟩ | ⟨hw, -⟩ <;> rw [hw] at he <;> cases he
  · show (turnRules L).WP p (((commit L).bind fun _ => Prim.endCommit).bind k) Q _
    rw [Prog.bind_assoc]
    refine wp_turn_commit ⟨rfl, rfl, hb⟩ fun t1 _ hC1 => ?_
    intro t2 hJ2 hr2
    obtain ⟨ho2, hlh2, hb2⟩ := Commits.yields _ _ hr2 hC1
    refine ⟨⟨ho2, hb2, hlh2⟩, fun _ u hp hJu => hk u hJu ?_⟩
    simp only [turnRules, perform] at hp
    split_ifs at hp
    cases hp
    refine ⟨hb2, nofun, ?_⟩
    show (t2.op p).isSome = false
    rw [hJ2.alone (by rw [show t2.owner = some p from ho2]; rfl) p]; rfl
  · refine hk _ hJt ⟨hb, hno, ?_⟩
    show (update s'.op p none p).isSome = false
    rw [update_self]; rfl

theorem neutral_code {c : Call X.Op} (hb : c ≠ .beginOp) (he : c ≠ .endOp)
    (hl : ∀ i, c ≠ .logWrite i) : Neutral (Call.code (X := X) L c) := by
  cases c with
  | bread b => exact neutral_bread b
  | brelse i => exact neutral_brelse i
  | getData i | setData i d | panic msg | ext e => exact ⟨trivial, fun _ => trivial⟩
  | beginOp => exact absurd rfl hb
  | endOp => exact absurd rfl he
  | logWrite i => exact absurd rfl (hl i)

theorem wp_turn_compile {c : SysCall X} (hc : Brackets c inOp) (hJ : Turns s)
    (hW : Within p inOp s.turn) : (turnRules L).WP p (compile L c) (fun _ => Returned p) s := by
  induction c generalizing inOp s with
  | ret a =>
    cases hc
    exact ⟨hW.op_none, hW.2.1⟩
  | op c k ih =>
    -- calls that leave the turn alone
    have hsame : Neutral (Call.code L c) → (∀ r, Brackets (k r) inOp) →
        (turnRules L).WP p (compile L (.op c k)) (fun _ => Returned p) s := fun hn hk =>
      wp_neutral hn Within.yields hW hJ fun r t hJt hWt => ih r (hk r) hJt hWt
    cases c with
    | beginOp =>
      obtain ⟨rfl, hk⟩ := hc
      intro s' hJ' hr
      have hW' := Within.yields _ _ hr hW
      have hop : s'.op p = none := hW'.op_none
      obtain ⟨hb, hno, -⟩ := hW'
      refine ⟨⟨hb, hop, hno⟩, fun r t hp hJt => ih r hk hJt ?_⟩
      simp only [turnRules, perform] at hp
      split at hp
      · cases hp
      split at hp
      · cases hp
      have he : beginOp p s' = (some r, t) := Option.some.inj hp
      unfold beginOp at he
      split at he
      · cases he
      · cases he
        refine ⟨hb, hno, ?_⟩
        show (update s'.op p (some s'.nextop) p).isSome = true
        rw [update_self]; rfl
    | endOp =>
      obtain ⟨rfl, hk⟩ := hc
      exact wp_turn_endOp hW fun t hJt hWt => ih () hk hJt hWt
    | logWrite i =>
      obtain ⟨rfl, hk⟩ := hc
      intro s' hJ' hr
      have hW' := Within.yields _ _ hr hW
      refine ⟨hW'.2.2, fun r t hp hJt => ih r hk hJt ?_⟩
      simp only [turnRules, perform] at hp
      split at hp
      · cases hp
      have he : logWrite L p i s' = (some r, t) := Option.some.inj hp
      rcases logWrite_turn i s' with ⟨msg, hw⟩ | ⟨u, hw, hu⟩ <;> rw [hw] at he <;> cases he
      rwa [hu]
    | bread b | getData i | ext e => exact hsame (neutral_code nofun nofun nofun) hc
    | setData i d | brelse i => exact hsame (neutral_code nofun nofun nofun) fun _ => hc
    | panic msg => exact hsame (neutral_code nofun nofun nofun) fun r => r.elim

theorem wp_turn_initlog (hJ : Turns s) (hC : Commits p lh false s.turn) :
    (turnRules L).WP p (initlog L) (fun _ => Returned p) s := by
  have hlast : ∀ t, Turns t → Commits p [] false t.turn →
      (turnRules L).WP p (Prim.boot (X := X)) (fun _ => Returned p) t := by
    intro t _ hCt t' hJ' hr
    obtain ⟨ho, hlh, hb⟩ := Commits.yields _ _ hr hCt
    refine ⟨⟨ho, hb, hlh⟩, fun _ u hp _ => ?_⟩
    simp only [turnRules, perform] at hp
    split_ifs at hp
    cases hp
    exact ⟨hJ'.unbooted hb p, nofun⟩
  have hinstall : ∀ t l, Turns t → Commits p l false t.turn →
      (turnRules L).WP p ((installTrans L true).bind fun _ => (Prim.setLh []).bind fun _ =>
        (writeHead L).bind fun _ => Prim.boot) (fun _ => Returned p) t := fun t l hJt hCt =>
    wp_neutral (neutral_installTrans true) Commits.yields hCt hJt fun _ t1 _ hC1 =>
      wp_turn_clear hC1 hlast
  unfold initlog recoverFromLog readHead
  simp only [Prog.bind_def, Prog.bind_assoc]
  refine wp_neutral (neutral_bread _) Commits.yields hC hJ fun i t1 hJ1 hC1 => ?_
  refine wp_neutral ⟨trivial, fun _ => trivial⟩ Commits.yields hC1 hJ1
    fun d t2 hJ2 hC2 => ?_
  split
  · exact wp_neutral (m := Prim.panic _) ⟨trivial, fun _ => trivial⟩ Commits.yields hC2 hJ2
      fun e => e.elim
  · rw [Prog.bind_assoc]
    refine wp_turn_setLh hC2 nofun fun t3 hJ3 hC3 => ?_
    exact wp_neutral (m := brelse i) (neutral_brelse i) Commits.yields hC3 hJ3
      fun _ t4 => hinstall t4 _

/-! ## Runs -/

/-- The system calls that processes start are bracketed. -/
def StartsBracketed : Act X → Prop
  | .start _ c => Bracketed c
  | _ => True

/-- The turns are right, and every process is where its program says. -/
def InTurn (L : Layout) (s : State X) : Prop :=
  Rules.Safe (turnRules L) Returned s.sys s.prog

theorem returned_stable (p : Fin N) : (turnRules (X := X) L).Stable p (Returned p) := by
  intro s t _ _ hr h
  have hop : t.op p = s.op p := hr.op
  exact ⟨hop.trans h.1, fun ho => h.2 (hr.owner.mp ho)⟩

theorem inTurn_afterCrash (s : Sys N X.Mem) :
    InTurn L (⟨afterCrash X s, fun _ => .ret ()⟩ : State X) :=
  ⟨turns_afterCrash s, fun _ => ⟨rfl, nofun⟩⟩

variable {s : State X}

theorem inTurn_boot (h : InTurn L s) (hb : s.sys.booted = false) (ho : s.sys.owner = none) :
    InTurn L ⟨{ s.sys with owner := some p }, update s.prog p (initlog L)⟩ := by
  have hJ : Turns s.sys := h.inv
  have hJ' : Turns { s.sys with owner := some p } := hJ.boot hb
  refine ⟨hJ', fun q => ?_⟩
  show (turnRules L).WP q (update s.prog p (initlog L) q) (fun _ => Returned q)
    { s.sys with owner := some p }
  by_cases hq : q = p
  · subst hq
    rw [update_self]
    exact wp_turn_initlog hJ' ⟨rfl, rfl, hb⟩
  · rw [update_of_ne hq]
    refine (h.wp q).stable turn_obeys (fun _ => returned_stable q) hJ hJ' ?_
    exact Yields.ofNone ho rfl id fun h => hq (Option.some.inj h).symm

theorem inTurn_step {t : State X} {a : Act X} (h : InTurn L s) (ha : StartsBracketed a)
    (hs : step L s a = some t) : InTurn L t := by
  cases a with
  | run p =>
    exact Rules.safe_runThread turn_obeys returned_stable h
      (runThread_of_runProc (fun _ _ _ => rfl) hs)
  | start p c =>
    simp only [step] at hs
    split_ifs at hs with hc
    cases hs
    have hI : Returned p s.sys := by
      have := h.wp p
      cases hp : s.prog p with
      | ret a => rwa [hp] at this
      | op o k => rw [hp] at hc; cases hc.2.1
    refine Rules.Safe.start h (wp_turn_compile ha h.inv ⟨hc.1, hI.2, ?_⟩)
    show (s.sys.op p).isSome = false
    rw [hI.1]; rfl
  | boot p =>
    simp only [step] at hs
    split_ifs at hs with hc
    cases hs
    exact inTurn_boot h hc.1 hc.2.1
  | crash =>
    cases hs
    exact inTurn_afterCrash s.sys

variable {d₀ : BlockNo → Block}

theorem inTurn_init (h : Init L d₀ s) : InTurn L s := by
  obtain ⟨s', hs'⟩ := h.fresh
  refine ⟨?_, fun p => ?_⟩
  · show Turns s.sys
    rw [hs']; exact turns_afterCrash s'
  · rw [h.prog p]
    rw [hs']; exact ⟨rfl, nofun⟩

end Xv6.Log
