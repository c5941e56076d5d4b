/-
# `Xv6.Log.Group` — the bookkeeping of a group commit

Operations that overlap in time commit together.  The counters that arrange it are
changed in separate sections under `log.lock`, with the commit itself running
unlocked in between.

**Proved here.**

  * the commit runs alone, and every block in the header is pinned once (`group_commit`)
-/
import Xv6.Log.Crash

namespace Xv6.Log

open Machine Function List

variable {N : Nat} {X : Ext N} {L : Layout} {d₀ : BlockNo → Block} {strict : Prop} {p : Fin N}
  {o : Op X.Op} {s t : Sys N X.Mem} {a : Option (Op.Res (X := X) o)}

/-! ## The header and the sleepers -/

structure Group {M : Type} (s : Sys N M) : Prop where
  nodup : s.booted = true → s.lh.Nodup
  empty : s.booted = true → s.committing = false → s.outstanding = 0 → s.lh = []
  asleep : ∀ p, s.asleep p = true → s.committing = true ∨ 1 ≤ s.outstanding

/-- The state at the end of a commit and of the recovery. -/
theorem Group.done {M : Type} {s : Sys N M} (hlh : s.lh = [])
    (ha : ∀ p, s.asleep p = true → s.committing = true ∨ 1 ≤ s.outstanding) : Group s :=
  ⟨fun _ => hlh ▸ nodup_nil, fun _ _ _ => hlh, ha⟩

theorem Group.perform (h : Group s) (hT : Turns s) (hpre : Pre L d₀ strict p o s)
    (hp : perform L X p o s = some (a, t)) : Group t := by
  by_cases hn : o.Neutral
  · obtain ⟨ht, ha⟩ := turn_of_neutral hn hp
    have hlh : t.lh = s.lh := congrArg Turn.lh ht
    have hbt : t.booted = s.booted := congrArg Turn.booted ht
    have hcm : t.committing = s.committing := congrArg Turn.committing ht
    have hout : t.outstanding = s.outstanding := congrArg Turn.outstanding ht
    refine ⟨?_, ?_, ?_⟩
    · rw [hlh, hbt]; exact h.nodup
    · rw [hlh, hbt, hcm, hout]; exact h.empty
    · rw [ha, hcm, hout]; exact h.asleep
  unfold Log.perform at hp
  split at hp
  · cases hp
  cases o with
  | beginOp =>
    simp only at hp
    split at hp
    · cases hp
    simp only [beginOp] at hp
    split at hp
    · rename_i hfull
      cases hp
      refine { h with asleep := fun q hq => ?_ }
      by_cases hqp : q = p
      · -- with nothing outstanding the header is empty, and there is room
        by_contra hno
        obtain ⟨hc, hout⟩ := not_or.mp hno
        have hout : s.outstanding = 0 := by simp only at hout; omega
        have hlh := h.empty hpre.1 (by simpa using hc) hout
        simp only [hlh, hout, length_nil, LOGSIZE, MAXOPBLOCKS] at hfull
        exact hfull.elim hc (by decide)
      · exact h.asleep q ((update_of_ne hqp ..).symm.trans hq)
    · cases hp
      exact { h with empty := fun _ _ h0 => absurd h0 (Nat.succ_ne_zero _)
                     asleep := fun _ _ => .inr (Nat.le_add_left ..) }
  | logWrite i =>
    have hl : logWrite L p i s = (a, t) := Option.some.inj hp
    have hpos := hT.outstanding_pos hpre.1
    rcases logWrite_cases L p i s with ⟨msg, he⟩ | ⟨-, he⟩ | ⟨hb, -, he⟩ <;> rw [he] at hl <;>
      obtain ⟨-, rfl⟩ := Prod.mk.inj hl
    · exact { h with }
    · exact { h with }
    · refine { h with nodup := fun hbt => ?_, empty := fun _ _ h0 => ?_ }
      · exact nodup_append.mpr ⟨h.nodup hbt, nodup_singleton _, fun c hc d hd he =>
          hb (by rwa [← mem_singleton.mp hd, ← he])⟩
      · rw [show s.outstanding = 0 from h0] at hpos; cases hpos
  | endOp =>
    have he : endOp p s = (a, t) := Option.some.inj hp
    rcases endOp_cases hT hpre.1 with ⟨hw, -⟩ | ⟨hw, hne⟩ <;> rw [hw] at he <;> cases he
    · exact { h with empty := by simp, asleep := fun _ _ => .inl rfl }
    · exact { h with empty := fun _ _ h0 => absurd h0 hne, asleep := fun _ hq => by cases hq }
  | endCommit =>
    cases hp
    exact Group.done hpre.2.2.1 fun _ hq => by cases hq
  | setLh lh =>
    obtain ⟨ho, -, hlh, -⟩ := hpre
    cases hp
    refine { h with nodup := fun hb => ?_, empty := fun hb _ _ => hlh hb }
    rw [show lh = [] from hlh hb]; exact nodup_nil
  | boot =>
    cases hp
    exact Group.done hpre.2.2.1 h.asleep
  | _ => exact absurd trivial hn

theorem group_step {ok : (e : X.Op) → X.Res e → Prop} {s t : State X} {b : Act X}
    (hG : Good L d₀ strict ok s) (h : Group s.sys) (hs : step L s b = some t) : Group t.sys := by
  cases b with
  | run p =>
    obtain ⟨o, k, a, hp, hper⟩ := step_run hs
    exact h.perform hG.inv.base.toTurns (hG.pre (obeys ok) hp) hper
  | start p c | boot p =>
    simp only [step] at hs
    split_ifs at hs
    cases hs; exact { h with }
  | crash => cases hs; exact Group.done rfl fun _ hq => by cases hq

/-! ## Group commit -/

/-- What only `commit` does once the kernel has booted. -/
def Op.Commits {E : Type} : Op E → Prop
  | .diskWrite _ | .bunpin _ | .setLh _ | .endCommit => True
  | _ => False

structure Bookkeeping (L : Layout) (s : State X) : Prop where
  /-- Whoever commits does so alone, from the `end_op` that found nobody else. -/
  committing : s.sys.committing = true ↔ ∃ p, s.sys.owner = some p
  alone : s.sys.committing = true → s.sys.outstanding = 0
  commits : ∀ p o k, s.prog p = .op o k → o.Commits → s.sys.owner = some p
  /-- `begin_op` does not return while somebody commits. -/
  admits : ∀ p k t, s.prog p = .op .beginOp k → s.sys.committing = true →
    step L s (.run p) = some t → t.prog = s.prog ∧ t.sys.outstanding = 0
  nodup : s.sys.lh.Nodup
  /-- Every block in the header is pinned, once, until the commit installs it. -/
  refcnt : ∀ i, (s.sys.buf i).refcnt = (∑ p, (s.sys.refs p).count i) + s.sys.pins.count i
  once : s.sys.pins.Nodup
  pinned : s.sys.committing = false →
    s.sys.pins.map (fun i => (s.sys.buf i).blockno) = s.sys.lh
  cached : ∀ i ∈ s.sys.pins, (s.sys.buf i).valid = true ∧ (s.sys.buf i).dev = ROOTDEV ∧
    (s.sys.buf i).blockno ∈ s.sys.lh
  pins : ∀ p t, step L s (.run p) = some t → ∀ i ∈ t.sys.pins, i ∈ s.sys.pins ∨
    (∃ k, s.prog p = .op (.logWrite i) k) ∧ (s.sys.buf i).blockno ∉ s.sys.lh
  unpins : ∀ p t, step L s (.run p) = some t → ∀ i ∈ s.sys.pins,
    (t.sys.buf i).blockno = (s.sys.buf i).blockno ∧ (i ∈ t.sys.pins ∨
      (∃ k, s.prog p = .op (.bunpin i) k) ∧
        s.sys.disk (s.sys.buf i).blockno = (s.sys.buf i).data)
  done : ∀ p k, s.prog p = .op .endCommit k → s.sys.lh = [] ∧ s.sys.pins = []
  /-- A process asleep in `begin_op` waits for somebody who will wake it. -/
  asleep : ∀ p, s.sys.asleep p = true → s.sys.committing = true ∨ 1 ≤ s.sys.outstanding

/-- **Group commit.**  Processes run system calls that follow the discipline of the log,
in any interleaving.  In every state reached after the boot the bookkeeping is right. -/
theorem group_commit {h : List (State X × Act X)} {s : State X}
    (r : Run (Init L d₀) (step L) h s)
    (hd : ∀ x ∈ h, ∀ p c, x.2 = .start p c → Disciplined (fun _ => True) (fun _ _ => True) c)
    (hb : s.sys.booted = true) : Bookkeeping L s := by
  obtain ⟨hG, hW⟩ : Good L d₀ False (fun _ _ => True) s ∧ Group s.sys := by
    refine r.inv_of_steps (I := fun s => Good L d₀ False (fun _ _ => True) s ∧ Group s.sys)
      (fun s hi => ⟨good_init hi, ?_⟩) (fun s a t hI hC hs =>
        ⟨good_step (fun _ _ => False.elim) hI.1 hC hs, group_step hI.1 hI.2 hs⟩)
      (fun x hx => allowed_of_disciplined (hd x hx))
    obtain ⟨s', hs'⟩ := hi.fresh
    rw [hs']
    exact Group.done rfl nofun
  have hB := hG.inv.base
  have hown : s.sys.committing = true ↔ ∃ p, s.sys.owner = some p := by
    rw [hB.committing, Option.isSome_iff_exists]
    exact and_iff_left hb
  have halone : s.sys.committing = true → s.sys.outstanding = 0 := fun hc => by
    rw [hB.outstanding, Finset.card_eq_zero, Finset.filter_eq_empty_iff]
    exact fun p _ => by simp [hB.alone (hB.committing.mp hc).1 p]
  have hpre : ∀ p o k, s.prog p = .op o k → Pre L d₀ False p o s.sys :=
    fun p o k hp => hG.pre (obeys _) hp
  exact {
    committing := hown
    alone := halone
    commits := fun p o k hp hc => by
      have := hpre p o k hp
      cases o with
      | diskWrite i => exact this.2.2.1
      | bunpin i | setLh lh | endCommit => exact this.1
      | _ => exact hc.elim
    admits := fun p k t hp hc hs => by
      simp only [step, runProc, hp, Log.perform] at hs
      split_ifs at hs
      simp only [beginOp, hc, true_or, if_true] at hs
      cases hs
      exact ⟨rfl, halone hc⟩
    nodup := hW.nodup hb
    refcnt := hB.refcnt
    once := hB.pinsNodup
    pinned := fun hc => hB.pinned (hB.toTurns.owner_of_begin hb (by simp [hc]))
    cached := fun i hi =>
      ⟨hB.pinsValid i hi, hB.dev i (.inr (hB.pinsValid i hi)), hB.pinsLh i hi⟩
    pins := fun p t hs i hi => by
      obtain ⟨o, k, a, hp, hper⟩ := step_run hs
      rcases (perform_effect hper).pins with he | ⟨j, -, he⟩ | ⟨j, rfl, hnew, he⟩ <;> rw [he] at hi
      · exact .inl hi
      · exact .inl (mem_of_mem_erase hi)
      · rcases mem_append.mp hi with hi | hi
        · exact .inl hi
        · obtain rfl := mem_singleton.mp hi
          exact .inr ⟨⟨k, hp⟩, hnew⟩
    unpins := fun p t hs i hi => by
      obtain ⟨o, k, a, hp, hper⟩ := step_run hs
      have heff := perform_effect hper
      refine ⟨heff.key i fun h0 => (hB.idle_buf h0).2.1 hi, ?_⟩
      rcases heff.pins with he | ⟨j, rfl, he⟩ | ⟨j, -, -, he⟩ <;> rw [he]
      · exact .inl hi
      · by_cases hij : i = j
        · subst hij
          obtain ⟨-, -, -, -, hdata, -⟩ := hpre p _ k hp
          exact .inr ⟨⟨k, hp⟩, hdata.symm⟩
        · exact .inl ((mem_erase_of_ne hij).mpr hi)
      · exact .inl (mem_append_left _ hi)
    done := fun p k hp => by
      obtain ⟨-, -, hlh, hpins, -⟩ := hpre p _ k hp
      exact ⟨hlh, hpins⟩
    asleep := hW.asleep }

set_option maxRecDepth 4000 in
/-- After the `log_write` of block 40 its buffer is pinned. -/
theorem group_commit_one : ∃ (h : List (State (Ext.none 1) × Act (Ext.none 1)))
    (s : State (Ext.none 1)), Run (Init Layout.mkfs fun _ => Bytes.zero _) (step Layout.mkfs) h s ∧
      s.sys.lh = [40] ∧ s.sys.pins.map (fun i => (s.sys.buf i).blockno) = [40] := by
  obtain ⟨s, r, he⟩ := run_of_exec (init_switchedOn Layout.mkfs)
    (show (exec (step Layout.mkfs) (switchedOn 1) (.boot 0 :: List.replicate 20 (.run 0) ++
        .start 0 (writeBlock 40 fun _ => 1) :: List.replicate 8 (.run 0))).map
      (fun s => (s.sys.booted, s.sys.committing, s.sys.lh)) = some (true, false, [40]) by
        decide +kernel)
  simp only [Prod.mk.injEq] at he
  refine ⟨_, s, r, he.2.2, ?_⟩
  rw [← he.2.2]
  refine (group_commit r (fun x hx p c hc => ?_) he.1).pinned he.2.1
  have hx := mem_hist hx
  rw [hc] at hx
  simp only [mem_cons, mem_append, mem_replicate, reduceCtorEq,
    and_false, or_false, false_or, Act.start.injEq] at hx
  rw [hx.2]
  exact disciplined_writeBlock trivial

end Xv6.Log
