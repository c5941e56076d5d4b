/-
# `Xv6.Log.Turns` — who is in an operation, who commits, what is in the header

The admission control of `begin_op` and the limits of `log_write` look at four
fields of `log` only.  `Turn` is that part of the state.  Nothing is asked here of
what system calls do to buffers: a call only has to pair `begin_op` with `end_op`
and to call `log_write` in between (`Bracketed`).
-/
import Mathlib.Algebra.BigOperators.Fin
import Xv6.Log.Code

namespace Xv6.Log

open Machine Function Option

variable {N : Nat} {X : Ext N} {L : Layout} {M : Type}

/-- The part of the state that decides who may log, and how much. -/
structure Turn (N : Nat) where
  op : Fin N → Option Nat
  nextop : Nat
  outstanding : Nat
  committing : Bool
  lh : List BlockNo
  booted : Bool
  owner : Option (Fin N)
  group : List (Nat × BlockNo)

def Sys.turn {M : Type} (s : Sys N M) : Turn N :=
  ⟨s.op, s.nextop, s.outstanding, s.committing, s.lh, s.booted, s.owner, s.group⟩

/-! ## The operations that leave it alone -/

def Op.Neutral {E : Type} : Op E → Prop
  | .beginOp | .logWrite _ | .endOp | .endCommit | .setLh _ | .boot => False
  | _ => True

theorem turn_bget (p : Fin N) (b : BlockNo) (s : Sys N M) :
    (bget p b s).2.turn = s.turn ∧ (bget p b s).2.asleep = s.asleep := by
  unfold bget
  split
  · exact ⟨rfl, rfl⟩
  · split <;> exact ⟨rfl, rfl⟩

theorem turn_of_neutral {p : Fin N} {o : Op X.Op} {s t : Sys N X.Mem}
    {a : Option (Op.Res (X := X) o)} (ho : o.Neutral) (h : perform L X p o s = some (a, t)) :
    t.turn = s.turn ∧ t.asleep = s.asleep := by
  unfold perform at h
  split at h
  · cases h
  · cases o with
    | beginOp | logWrite i | endOp | endCommit | setLh lh | boot => cases ho
    | bget b =>
      have he : bget p b s = (a, t) := Option.some.inj h
      have := turn_bget p b s
      rwa [he] at this
    | deref i =>
      cases h
      simp only [deref]
      split <;> exact ⟨rfl, rfl⟩
    | diskWrite i =>
      simp only at h
      split at h <;> cases h
      · simp only [diskWrite]
        split <;> exact ⟨rfl, rfl⟩
      · exact ⟨rfl, rfl⟩
    | acquiresleep i =>
      simp only at h
      split_ifs at h
      cases h; exact ⟨rfl, rfl⟩
    | releasesleep i =>
      simp only at h
      split at h <;> (cases h; exact ⟨rfl, rfl⟩)
    | valid i | diskRead i | getData i | setData i d | bunpin i | getLh | panic msg =>
      cases h; exact ⟨rfl, rfl⟩
    | ext e =>
      obtain ⟨⟨r, m⟩, -, he⟩ := map_eq_some_iff.mp h
      cases he; exact ⟨rfl, rfl⟩

/-! ## The invariant -/

/-- Operations are counted; nobody is in one while somebody commits or recovers. -/
structure Turns {M : Type} (s : Sys N M) : Prop where
  outstanding : s.outstanding = (Finset.univ.filter fun p => (s.op p).isSome = true).card
  committing : s.committing = true ↔ s.owner.isSome = true ∧ s.booted = true
  alone : s.owner.isSome = true → ∀ p, s.op p = none
  unbooted : s.booted = false → ∀ p, s.op p = none

section
variable {M : Type} {s t : Sys N M} {p : Fin N}

theorem Turns.congr (h : Turns s) (he : t.turn = s.turn) : Turns t := by
  have hop : t.op = s.op := congrArg Turn.op he
  have hout : t.outstanding = s.outstanding := congrArg Turn.outstanding he
  have hcom : t.committing = s.committing := congrArg Turn.committing he
  have hbt : t.booted = s.booted := congrArg Turn.booted he
  have hown : t.owner = s.owner := congrArg Turn.owner he
  refine ⟨?_, ?_, ?_, ?_⟩
  · rw [hop, hout]; exact h.outstanding
  · rw [hcom, hbt, hown]; exact h.committing
  · rw [hop, hown]; exact h.alone
  · rw [hop, hbt]; exact h.unbooted

/-- While somebody is in an operation, nobody commits. -/
theorem Turns.owner_none (h : Turns s) (hop : (s.op p).isSome = true) : s.owner = none := by
  cases ho : s.owner with
  | none => rfl
  | some q =>
    rw [h.alone (by rw [ho]; rfl) p] at hop
    cases hop

theorem Turns.booted_of_op (h : Turns s) (hop : (s.op p).isSome = true) : s.booted = true := by
  cases hb : s.booted with
  | true => rfl
  | false => rw [h.unbooted hb p] at hop; cases hop

theorem card_op_update (op : Fin N → Option Nat) (p : Fin N) (x : Option Nat) :
    (Finset.univ.filter fun q => (update op p x q).isSome = true).card
      + (if (op p).isSome = true then 1 else 0)
    = (Finset.univ.filter fun q => (op q).isSome = true).card
      + (if x.isSome = true then 1 else 0) := by
  simp only [Finset.card_filter]
  have h₁ := Finset.add_sum_erase Finset.univ
    (fun q => if (update op p x q).isSome = true then 1 else 0) (Finset.mem_univ p)
  have h₂ := Finset.add_sum_erase Finset.univ
    (fun q => if (op q).isSome = true then 1 else 0) (Finset.mem_univ p)
  have h₃ : (∑ q ∈ Finset.univ.erase p, if (update op p x q).isSome = true then 1 else 0)
      = ∑ q ∈ Finset.univ.erase p, if (op q).isSome = true then 1 else 0 :=
    Finset.sum_congr rfl fun q hq => by rw [update_of_ne (Finset.ne_of_mem_erase hq)]
  simp only [update_self] at h₁
  omega

/-- `begin_op` lets nobody in while a commit is under way. -/
theorem Turns.owner_of_begin (h : Turns s) (hb : s.booted = true) (hc : ¬ s.committing = true) :
    s.owner = none := by
  cases ho : s.owner with
  | none => rfl
  | some q => exact absurd (h.committing.mpr ⟨by rw [ho]; rfl, hb⟩) hc

theorem Turns.beginOp (h : Turns s) (hb : s.booted = true) (hop : s.op p = none)
    (hc : ¬ s.committing = true) :
    Turns { s with
      outstanding := s.outstanding + 1
      op := update s.op p (some s.nextop), nextop := s.nextop + 1 } := by
  have ho := h.owner_of_begin hb hc
  refine { h with outstanding := ?_, alone := fun hs => ?_, unbooted := fun hf => ?_ }
  · have := card_op_update s.op p (some s.nextop)
    rw [hop] at this
    simp only [isSome_none, Bool.false_eq_true, if_false, isSome_some, if_true,
      ← h.outstanding] at this
    exact this.symm
  · rw [show s.owner = none from ho] at hs; cases hs
  · rw [show s.booted = false from hf] at hb; cases hb

section
variable (h : Turns s)
include h

theorem Turns.leaveOp (hop : (s.op p).isSome = true) :
    Turns { s with outstanding := s.outstanding - 1, op := update s.op p none } := by
  refine { h with outstanding := ?_, alone := fun hs q => ?_, unbooted := fun hf q => ?_ }
  · have := card_op_update s.op p none
    rw [if_pos hop, ← h.outstanding] at this
    simp only [isSome_none, Bool.false_eq_true, if_false] at this
    show s.outstanding - 1
      = (Finset.univ.filter fun q => (update s.op p none q).isSome = true).card
    omega
  · by_cases hqp : q = p
    · subst hqp; exact update_self ..
    · exact (update_of_ne hqp ..).trans (h.alone hs q)
  · by_cases hqp : q = p
    · subst hqp; exact update_self ..
    · exact (update_of_ne hqp ..).trans (h.unbooted hf q)

theorem Turns.op_of_outstanding (h0 : s.outstanding = 0) (q : Fin N) : s.op q = none := by
  have hcard := h.outstanding
  rw [h0] at hcard
  have := Finset.filter_eq_empty_iff.mp (Finset.card_eq_zero.mp hcard.symm) (Finset.mem_univ q)
  simpa using this

/-- The last operation of the group ends: its process becomes the owner. -/
theorem Turns.own (hb : s.booted = true) (hall : ∀ q, s.op q = none) :
    Turns { s with committing := true, owner := some p } :=
  { h with committing := by simp [hb], alone := fun _ => hall }

theorem Turns.disown {c b : Bool} {g : List (Nat × BlockNo)}
    (ho : s.owner = some p) (hc : c = false) :
    Turns { s with committing := c, booted := b, owner := none, group := g } :=
  { h with
    committing := by simp [hc]
    alone := nofun
    unbooted := fun _ => h.alone (by rw [ho]; rfl) }

/-- The recovery starts. -/
theorem Turns.boot (hb : s.booted = false) : Turns { s with owner := some p } := by
  refine { h with committing := ?_, alone := fun _ => h.unbooted hb }
  have hcm : ¬ s.committing = true := fun hcm => by
    have := (h.committing.mp hcm).2
    rw [hb] at this; cases this
  simp [hcm, hb]

theorem Turns.outstanding_pos (hop : (s.op p).isSome = true) : 1 ≤ s.outstanding := by
  rw [h.outstanding]
  exact Finset.card_pos.mpr ⟨p, Finset.mem_filter.mpr ⟨Finset.mem_univ p, hop⟩⟩

/-- In an operation, `end_op` does not find a commit under way. -/
theorem endOp_cases (hop : (s.op p).isSome = true) : endOp p s = (some true, { s with
        outstanding := s.outstanding - 1, op := update s.op p none,
        committing := true, owner := some p }) ∧ s.outstanding - 1 = 0 ∨
    endOp p s = (some false, { s with
        outstanding := s.outstanding - 1, op := update s.op p none }.wakeupLog) ∧
      s.outstanding - 1 ≠ 0 := by
  have hc : ¬ s.committing = true := fun hc => by
    have := (h.committing.mp hc).1
    rw [h.owner_none hop] at this; cases this
  unfold endOp
  simp only [hc, Bool.false_eq_true, if_false]
  split
  · rename_i h0; exact .inl ⟨rfl, h0⟩
  · rename_i h0; exact .inr ⟨rfl, h0⟩

end

end

theorem turns_afterCrash (s : Sys N X.Mem) : Turns (afterCrash X s) where
  outstanding := by simp [afterCrash]
  committing := by simp [afterCrash]
  alone h := by cases h
  unbooted _ _ := rfl

end Xv6.Log
