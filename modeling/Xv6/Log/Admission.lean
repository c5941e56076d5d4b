/-
# `Xv6.Log.Admission` — the space `begin_op` reserves, and where `log_write` panics

`begin_op` admits an operation when `lh.n + (outstanding+1)*MAXOPBLOCKS` is at most
`LOGSIZE`.  If operations log at most `MAXOPBLOCKS` distinct blocks each, this
covers what the admitted operations may still log (`Reserved`), over any
interleaving and any number of operations between two commits.

`log_write` does not use all of it.  Before it looks whether the block is in the
header already it panics at `lh.n >= log.size - 1`, and `mkfs` makes `log.size`
equal to `LOGSIZE`: admitted operations reach the panic with the last block of
their reservation.

**Proved here.**

  * the reservation holds along every run; `log_write` panics exactly when the group has
    `LOGSIZE - 1` blocks (`logWrite_panics_iff`)
  * three operations of ten blocks each do panic (`too_big_a_transaction`)
-/
import Mathlib.Algebra.Order.BigOperators.Group.Finset
import Xv6.Log.Bracket

namespace Xv6.Log

open Machine Function List

variable {N : Nat} {X : Ext N} {L : Layout} {p : Fin N} {k : Nat} {v : Turn N} {s : Sys N X.Mem}
  {b : BlockNo}

/-! ## What was logged since the last commit -/

/-- The blocks that operation `k` has logged. -/
def Turn.blocksOf (v : Turn N) (k : Nat) : Finset BlockNo :=
  ((v.group.filter fun u => u.1 = k).map Prod.snd).toFinset

/-- The blocks that the operations since the last commit have logged. -/
def Turn.groupBlocks (v : Turn N) : Finset BlockNo := (v.group.map Prod.snd).toFinset

/-- The blocks that the operation `p` is in has logged. -/
def Turn.opBlocks (v : Turn N) (p : Fin N) : Finset BlockNo := match v.op p with
  | some k => v.blocksOf k
  | none => ∅

/-- How many more blocks the operation `p` is in may log. -/
def Turn.left (v : Turn N) (p : Fin N) : Nat := match v.op p with
  | some k => MAXOPBLOCKS - (v.blocksOf k).card
  | none => 0

/-- A `log_write` of block `b` by the process in operation `k`. -/
def Turn.log (v : Turn N) (k : Nat) (b : BlockNo) : Turn N :=
  { v with lh := if b ∈ v.lh then v.lh else v.lh ++ [b], group := v.group ++ [(k, b)] }

theorem blocksOf_log_self (v : Turn N) (k : Nat) (b : BlockNo) :
    (v.log k b).blocksOf k = insert b (v.blocksOf k) := by
  simp [Turn.blocksOf, Turn.log, filter_append]

theorem blocksOf_log_ne (v : Turn N) {j : Nat} (hj : j ≠ k) (b : BlockNo) :
    (v.log k b).blocksOf j = v.blocksOf j := by
  have : ¬ k = j := fun h => hj h.symm
  simp [Turn.blocksOf, Turn.log, filter_append, this]

theorem groupBlocks_log (v : Turn N) (k : Nat) (b : BlockNo) :
    (v.log k b).groupBlocks = insert b v.groupBlocks := by
  simp [Turn.groupBlocks, Turn.log]

theorem blocksOf_subset (v : Turn N) (k : Nat) : v.blocksOf k ⊆ v.groupBlocks := by
  intro b hb
  simp only [Turn.blocksOf, mem_toFinset, mem_map, mem_filter] at hb
  obtain ⟨u, ⟨hu, -⟩, rfl⟩ := hb
  exact mem_toFinset.mpr (mem_map_of_mem hu)

/-! ## The reservation -/

structure Reserved (v : Turn N) : Prop where
  unlogged : v.booted = false → v.group = []
  header : v.booted = true → v.owner = none → v.lh.Nodup ∧ v.lh.toFinset = v.groupBlocks
  room : v.booted = true → v.owner = none → v.lh.length + ∑ p, v.left p ≤ LOGSIZE

theorem Reserved.length_lh (h : Reserved v) (hb : v.booted = true)
    (ho : v.owner = none) : v.lh.length = v.groupBlocks.card := by
  obtain ⟨hnd, he⟩ := h.header hb ho
  rw [← he, toFinset_card_of_nodup hnd]

theorem left_le (v : Turn N) (p : Fin N) :
    v.left p ≤ if (v.op p).isSome = true then MAXOPBLOCKS else 0 := by
  unfold Turn.left
  cases v.op p with
  | none => simp
  | some k => simp

theorem sum_left_le (v : Turn N) :
    ∑ p, v.left p ≤ (Finset.univ.filter fun p => (v.op p).isSome = true).card * MAXOPBLOCKS := by
  calc ∑ p, v.left p ≤ ∑ p, if (v.op p).isSome = true then MAXOPBLOCKS else 0 :=
        Finset.sum_le_sum fun p _ => left_le v p
    _ = (Finset.univ.filter fun p => (v.op p).isSome = true).card * MAXOPBLOCKS := by
        rw [← Finset.sum_filter, Finset.sum_const, smul_eq_mul]

/-- `begin_op` admits an operation: the test it makes reserves the space. -/
theorem Reserved.beginOp (h : Reserved s.turn) (hT : Turns s)
    (hb : s.booted = true) (hop : s.op p = none) (hc : ¬ s.committing = true)
    (hroom : s.lh.length + (s.outstanding + 1) * MAXOPBLOCKS ≤ LOGSIZE) : Reserved { s.turn with
      outstanding := s.outstanding + 1
      op := update s.op p (some s.nextop), nextop := s.nextop + 1 } := by
  refine { h with room := fun _ _ => ?_ }
  refine le_trans (Nat.add_le_add_left (sum_left_le _) _) ?_
  have hT' := (hT.beginOp hb hop hc).outstanding
  rwa [← hT']

theorem left_log_le (v : Turn N) (k : Nat) (b : BlockNo) (q : Fin N) :
    (v.log k b).left q ≤ v.left q := by
  show (match v.op q with
    | some j => MAXOPBLOCKS - ((v.log k b).blocksOf j).card
    | none => 0) ≤ v.left q
  unfold Turn.left
  cases hq : v.op q with
  | none => exact le_rfl
  | some j =>
    by_cases hjk : j = k
    · subst hjk
      simp only
      rw [blocksOf_log_self]
      exact Nat.sub_le_sub_left (Finset.card_le_card (Finset.subset_insert _ _)) _
    · simp only
      rw [blocksOf_log_ne v hjk]

/-- A block new to the header comes out of the operation's own reservation. -/
theorem left_log_lt (hk : v.op p = some k)
    (hb : b ∉ v.blocksOf k) (hmax : (insert b (v.blocksOf k)).card ≤ MAXOPBLOCKS) :
    (v.log k b).left p < v.left p := by
  have h₁ : (v.log k b).left p = MAXOPBLOCKS - (insert b (v.blocksOf k)).card := by
    show (match v.op p with
      | some j => MAXOPBLOCKS - ((v.log k b).blocksOf j).card
      | none => 0) = _
    rw [hk]
    simp only
    rw [blocksOf_log_self]
  have h₂ : v.left p = MAXOPBLOCKS - (v.blocksOf k).card := by
    unfold Turn.left
    rw [hk]
  rw [h₁, h₂]
  rw [Finset.card_insert_of_notMem hb] at hmax ⊢
  omega

theorem Reserved.log (h : Reserved v) (hb : v.booted = true) (ho : v.owner = none)
    (hk : v.op p = some k)
    (hmax : (insert b (v.blocksOf k)).card ≤ MAXOPBLOCKS) : Reserved (v.log k b) := by
  obtain ⟨hnd, hset⟩ := h.header hb ho
  have hmem : ∀ c, c ∈ v.lh ↔ c ∈ v.groupBlocks := fun c => by rw [← hset, mem_toFinset]
  refine ⟨fun hf => ?_, fun _ _ => ⟨?_, ?_⟩, fun _ _ => ?_⟩
  · rw [show v.booted = false from hf] at hb; cases hb
  · show (if b ∈ v.lh then v.lh else v.lh ++ [b]).Nodup
    split
    · exact hnd
    · rename_i hnew
      exact nodup_append.mpr ⟨hnd, nodup_singleton b, fun c hc d hd he =>
        hnew (by rwa [← mem_singleton.mp hd, ← he])⟩
  · rw [groupBlocks_log, ← hset]
    show (if b ∈ v.lh then v.lh else v.lh ++ [b]).toFinset = insert b v.lh.toFinset
    split
    · rename_i hin
      exact (Finset.insert_eq_of_mem (mem_toFinset.mpr hin)).symm
    · ext c; simp
  · have hroom := h.room hb ho
    show (if b ∈ v.lh then v.lh else v.lh ++ [b]).length + ∑ q, (v.log k b).left q ≤ LOGSIZE
    split
    · have := Finset.sum_le_sum fun q (_ : q ∈ Finset.univ) => left_log_le v k b q
      omega
    · rename_i hnew
      have hnot : b ∉ v.blocksOf k := fun hin => hnew ((hmem b).mpr (blocksOf_subset v k hin))
      have := Finset.sum_lt_sum (fun q (_ : q ∈ Finset.univ) => left_log_le v k b q)
        ⟨p, Finset.mem_univ p, left_log_lt hk hnot hmax⟩
      rw [length_append, length_singleton]
      omega

/-- An operation ends: what it had reserved and not used is free again. -/
theorem Reserved.leaveOp (h : Reserved v) (n : Nat) :
    Reserved { v with outstanding := n, op := update v.op p none } := by
  refine { h with room := fun hb ho => le_trans (Nat.add_le_add_left ?_ _) (h.room hb ho) }
  refine Finset.sum_le_sum fun q _ => ?_
  show (match update v.op p none q with
    | some k => MAXOPBLOCKS - (v.blocksOf k).card
    | none => 0) ≤ v.left q
  by_cases hq : q = p
  · subst hq; rw [update_self]; exact Nat.zero_le _
  · rw [update_of_ne hq]; exact le_rfl

/-- The header is empty when everything is over. -/
theorem Reserved.done (hop : ∀ q, v.op q = none) (hlh : v.lh = [])
    (hg : v.group = []) : Reserved v where
  unlogged _ := hg
  header _ _ := by
    rw [hlh]
    exact ⟨nodup_nil, by simp [Turn.groupBlocks, hg]⟩
  room _ _ := by
    have : ∀ q, v.left q = 0 := fun q => by simp [Turn.left, hop q]
    simp [hlh, this]

/-- While somebody commits or recovers there is no reservation. -/
theorem Reserved.owned {w : Turn N} (h : Reserved v) (hg : w.group = v.group)
    (hb : w.booted = v.booted) (ho : w.owner.isSome = true) : Reserved w where
  unlogged hf := by rw [hg]; exact h.unlogged (hb ▸ hf)
  header _ hno := by rw [hno] at ho; cases ho
  room _ hno := by rw [hno] at ho; cases ho

/-! ## Along every run -/

/-- Every operation calls `log_write` on at most `MAXOPBLOCKS` distinct blocks. -/
def WithinLimit (s : State X) : Act X → Prop
  | .run p =>
    match s.prog p with
    | .op (.logWrite i) _ =>
      (insert (s.sys.buf i).blockno (s.sys.turn.opBlocks p)).card ≤ MAXOPBLOCKS
    | _ => True
  | _ => True

instance (s : State X) (a : Act X) : Decidable (WithinLimit s a) := by
  unfold WithinLimit
  split
  · split <;> infer_instance
  · infer_instance

theorem reserved_perform {o : Op X.Op} {t : Sys N X.Mem} {a : Option (Op.Res (X := X) o)}
    (hT : Turns s) (h : Reserved s.turn) (hdue : Due p o s)
    (hmax : ∀ i, o = .logWrite i →
      (insert (s.buf i).blockno (s.turn.opBlocks p)).card ≤ MAXOPBLOCKS)
    (hp : perform L X p o s = some (a, t)) : Reserved t.turn := by
  by_cases hn : o.Neutral
  · rwa [(turn_of_neutral hn hp).1]
  unfold perform at hp
  split at hp
  · cases hp
  cases o with
  | beginOp =>
    obtain ⟨hb, hop, -⟩ := hdue
    simp only at hp
    split at hp
    · cases hp
    have he : beginOp p s = (a, t) := Option.some.inj hp
    unfold beginOp at he
    split at he
    · cases he; exact h
    · rename_i hgo
      cases he
      exact h.beginOp hT hb hop (fun hc => hgo (.inl hc)) (by omega)
  | logWrite i =>
    have he : logWrite L p i s = (a, t) := Option.some.inj hp
    obtain ⟨k, hk⟩ := Option.isSome_iff_exists.mp hdue
    rcases logWrite_turn i s with ⟨msg, hw⟩ | ⟨u, hw, hu⟩ <;> rw [hw] at he <;> cases he
    · exact h
    · have hlim := hmax i rfl
      have hops : s.turn.opBlocks p = s.turn.blocksOf k := by
        unfold Turn.opBlocks
        rw [show s.turn.op p = some k from hk]
      rw [hops] at hlim
      rw [hu, hk]
      exact h.log (hT.booted_of_op hdue) (hT.owner_none hdue) hk hlim
  | endOp =>
    have he : endOp p s = (a, t) := Option.some.inj hp
    rcases endOp_cases hT hdue with ⟨hw, -⟩ | ⟨hw, -⟩ <;> rw [hw] at he <;> cases he
    · exact h.owned rfl rfl rfl
    · exact h.leaveOp _
  | endCommit =>
    obtain ⟨ho, -, hlh⟩ := hdue
    cases hp
    exact Reserved.done (hT.alone (by rw [ho]; rfl)) hlh rfl
  | setLh lh =>
    cases hp
    refine h.owned rfl rfl ?_
    rw [hdue.1]; rfl
  | boot =>
    obtain ⟨ho, hb, hlh⟩ := hdue
    cases hp
    exact Reserved.done (hT.alone (by rw [ho]; rfl)) hlh (h.unlogged hb)
  | _ => exact absurd trivial hn

theorem reserved_step {s t : State X} {a : Act X} (hT : InTurn L s) (h : Reserved s.sys.turn)
    (ha : WithinLimit s a) (hs : step L s a = some t) : Reserved t.sys.turn := by
  cases a with
  | run p =>
    obtain ⟨o, k, a, hp, hper⟩ := step_run hs
    refine reserved_perform hT.inv h (hT.pre turn_obeys hp) ?_ hper
    rintro i rfl
    simpa only [WithinLimit, hp] using ha
  | start p c =>
    simp only [step] at hs
    split_ifs at hs
    cases hs; exact h
  | boot p =>
    simp only [step] at hs
    split_ifs at hs
    cases hs; exact h.owned rfl rfl rfl
  | crash => cases hs; exact Reserved.done (fun _ => rfl) rfl rfl

theorem reserved_run {d₀ : BlockNo → Block} {h : List (State X × Act X)} {s : State X}
    (r : Run (Init L d₀) (step L) h s) (hb : ∀ x ∈ h, StartsBracketed x.2)
    (hm : ∀ x ∈ h, WithinLimit x.1 x.2) : InTurn L s ∧ Reserved s.sys.turn := by
  refine r.inv_of_steps (I := fun s => InTurn L s ∧ Reserved s.sys.turn)
    (C := fun s a => StartsBracketed a ∧ WithinLimit s a) (fun s hs => ⟨inTurn_init hs, ?_⟩)
    (fun s a t hI hC hs => ⟨inTurn_step hI.1 hC.1 hs, reserved_step hI.1 hI.2 hC.2 hs⟩)
    fun x hx => ⟨hb x hx, hm x hx⟩
  obtain ⟨s', hs'⟩ := hs.fresh
  rw [hs']
  exact Reserved.done (fun _ => rfl) rfl rfl

/-! ## `log_write` -/

/-- The panics of `log_write`, with the log as `mkfs` lays it out. -/
theorem logWrite_mkfs {M : Type} {i : BufPtr} {s : Sys N M} (hs : s.panicked = none)
    (hout : 1 ≤ s.outstanding) :
    LOGSIZE - 1 ≤ s.lh.length ∧ logWrite Layout.mkfs p i s = s.panic "too big a transaction" ∨
    s.lh.length < LOGSIZE - 1 ∧ ∃ t, logWrite Layout.mkfs p i s = (some (), t) ∧
      t.panicked = none ∧ t.lh = if (s.buf i).blockno ∈ s.lh then s.lh
        else s.lh ++ [(s.buf i).blockno] := by
  have hsize : (Layout.mkfs.size : Int) = LOGSIZE := rfl
  unfold logWrite
  simp only [hsize]
  split
  · rename_i hbig
    exact .inl ⟨by simp only [LOGSIZE] at hbig ⊢; omega, rfl⟩
  · rename_i hbig
    have hlt : s.lh.length < LOGSIZE - 1 := by simp only [LOGSIZE] at hbig ⊢; omega
    rw [if_neg (by omega)]
    split
    · exact .inr ⟨hlt, _, rfl, hs, rfl⟩
    · exact .inr ⟨hlt, _, rfl, hs, rfl⟩

/-- **Admission control.**  Processes run bracketed system calls, each operation
logging at most `MAXOPBLOCKS` distinct blocks.  In every state reached the header
and what the admitted operations may still log fit in `LOGSIZE`.  A `log_write`
panics if and only if the operations since the last commit have logged
`LOGSIZE - 1` blocks already; where it does not, a block that is in the header is
absorbed. -/
theorem logWrite_panics_iff {d₀ : BlockNo → Block} {h : List (State X × Act X)} {s : State X}
    (r : Run (Init Layout.mkfs d₀) (step Layout.mkfs) h s)
    (hb : ∀ x ∈ h, StartsBracketed x.2) (hm : ∀ x ∈ h, WithinLimit x.1 x.2) :
    (s.sys.booted = true → s.sys.owner = none →
      s.sys.lh.length + ∑ p, s.sys.turn.left p ≤ LOGSIZE) ∧
    ∀ p i k, s.prog p = .op (.logWrite i) k → ∀ t, step Layout.mkfs s (.run p) = some t →
      (t.sys.panicked.isSome = true ↔ LOGSIZE - 1 ≤ s.sys.turn.groupBlocks.card) ∧
      (t.sys.panicked = none → (s.sys.buf i).blockno ∈ s.sys.turn.groupBlocks →
        t.sys.lh = s.sys.lh) := by
  obtain ⟨hT, hR⟩ := reserved_run r hb hm
  refine ⟨hR.room, fun p i k hp t hs => ?_⟩
  have hJ : Turns s.sys := hT.inv
  have hdue : (s.sys.op p).isSome = true := hT.pre turn_obeys hp
  have hbt := hJ.booted_of_op hdue
  have hno := hJ.owner_none hdue
  have hlen : s.sys.lh.length = s.sys.turn.groupBlocks.card := hR.length_lh hbt hno
  have hmem : (s.sys.buf i).blockno ∈ s.sys.turn.groupBlocks → (s.sys.buf i).blockno ∈ s.sys.lh :=
    fun hin => by
      have he : s.sys.lh.toFinset = s.sys.turn.groupBlocks := (hR.header hbt hno).2
      rw [← he] at hin
      exact mem_toFinset.mp hin
  -- the process is in an operation, so `log_write outside of trans` is out of reach
  have hout := hJ.outstanding_pos hdue
  simp only [step, runProc, hp, perform] at hs
  by_cases hpan : s.sys.panicked.isSome = true
  · simp [hpan] at hs
  · have hnone : s.sys.panicked = none := by simpa using hpan
    rw [if_neg hpan] at hs
    rcases logWrite_mkfs hnone hout with ⟨hge, hw⟩ | ⟨hlt, u, hw, hu, hlh⟩
    · rw [hw] at hs
      cases hs
      refine ⟨⟨fun _ => hlen ▸ hge, fun _ => rfl⟩, fun hn => ?_⟩
      cases hn
    · rw [hw] at hs
      cases hs
      refine ⟨⟨fun h => ?_, fun hge => ?_⟩, fun _ hin => ?_⟩
      · rw [show _ = none from hu] at h; cases h
      · omega
      · exact hlh.trans (if_pos (hmem hin))

/-! ### Three operations of ten blocks -/

/-- Log the blocks `bs` and end the operation. -/
def logAndEnd : List BlockNo → SysCall (Ext.none N)
  | [] => Prog.call (S := callSig (Ext.none N)) .endOp
  | b :: bs => do
    let i ← Prog.call (S := callSig (Ext.none N)) (.bread b)
    Prog.call (S := callSig (Ext.none N)) (.logWrite i)
    Prog.call (S := callSig (Ext.none N)) (.brelse i)
    logAndEnd bs

/-- A system call that logs the blocks `bs`. -/
def logBlocks (bs : List BlockNo) : SysCall (Ext.none N) := do
  Prog.call (S := callSig (Ext.none N)) .beginOp
  logAndEnd bs

theorem bracketed_logBlocks (bs : List BlockNo) : Bracketed (logBlocks (N := N) bs) := by
  refine ⟨rfl, ?_⟩
  induction bs with
  | nil => exact ⟨rfl, rfl⟩
  | cons b bs ih => exact fun i => ⟨rfl, ih⟩

/-- Boot, and one process up to its first `log_write`. -/
def firstBlock : List (Act (Ext.none 1)) :=
  .boot 0 :: List.replicate 20 (.run 0) ++ .start 0 (logBlocks [40]) :: List.replicate 5 (.run 0)

/-- The first `log_write` after a boot does not panic. -/
theorem logWrite_panics_iff_first :
    ∃ (h : List (State (Ext.none 1) × Act (Ext.none 1))) (s t : State (Ext.none 1)),
      Run (Init Layout.mkfs fun _ => Bytes.zero _) (step Layout.mkfs) h s ∧
      step Layout.mkfs s (.run 0) = some t ∧ s.sys.outstanding = 1 ∧ t.sys.panicked = none := by
  have hlim : ∀ x ∈ hist (step Layout.mkfs) (switchedOn 1) firstBlock, WithinLimit x.1 x.2 := by
    decide +kernel
  have hstart : ∀ x ∈ hist (step Layout.mkfs) (switchedOn 1) firstBlock, StartsBracketed x.2 := by
    intro x hx
    have hx := mem_hist hx
    generalize x.2 = a at hx
    cases a with
    | start p c =>
      simp only [firstBlock, mem_cons, mem_append, mem_replicate, reduceCtorEq,
        and_false, or_false, false_or, Act.start.injEq] at hx
      rw [hx.2]; exact bracketed_logBlocks _
    | _ => trivial
  have he : ((exec (step Layout.mkfs) (switchedOn 1) firstBlock).bind fun s =>
      (step Layout.mkfs s (.run 0)).map fun _ =>
        (s.sys.outstanding, s.sys.turn.groupBlocks.card, match s.prog 0 with
          | .op (.logWrite _) _ => true
          | _ => false)) = some (1, 0, true) := by decide +kernel
  obtain ⟨s, hs, he⟩ := Option.bind_eq_some_iff.mp he
  obtain ⟨t, ht, he⟩ := Option.map_eq_some_iff.mp he
  simp only [Prod.mk.injEq] at he
  obtain ⟨hout, hcard, hlog⟩ := he
  have r := exec_run _ (Run.init (init_switchedOn Layout.mkfs)) hs
  refine ⟨_, s, t, r, ht, hout, ?_⟩
  split at hlog
  · rename_i i k hp
    have hiff := ((logWrite_panics_iff r hstart hlim).2 0 i k hp t ht).1
    rw [hcard] at hiff
    exact Option.not_isSome_iff_eq_none.mp fun h => absurd (hiff.mp h) (by decide)
  · cases hlog

/-- Boot; three processes begin an operation, and then each in turn logs its ten
blocks, the last one up to the `log_write` of its tenth. -/
def tenBlocksEach : List (Act (Ext.none 3)) := .boot 0 :: List.replicate 20 (.run 0) ++
    [.start 0 (logBlocks [40, 41, 42, 43, 44, 45, 46, 47, 48, 49]), .run 0,
     .start 1 (logBlocks [50, 51, 52, 53, 54, 55, 56, 57, 58, 59]), .run 1,
     .start 2 (logBlocks [60, 61, 62, 63, 64, 65, 66, 67, 68, 69]), .run 2] ++
    List.replicate 70 (.run 0) ++ List.replicate 70 (.run 1) ++ List.replicate 67 (.run 2)

theorem starts_tenBlocksEach : ∀ a ∈ tenBlocksEach, StartsBracketed a := by
  intro a ha
  cases a with
  | start p c =>
    simp only [tenBlocksEach, mem_cons, mem_append, mem_replicate, reduceCtorEq,
      and_false, or_false, false_or, Act.start.injEq, not_mem_nil] at ha
    rcases ha with ⟨-, rfl⟩ | ⟨-, rfl⟩ | ⟨-, rfl⟩ <;> exact bracketed_logBlocks _
  | _ => trivial

set_option maxRecDepth 8000 in
/-- The third process asks for the last block of its reservation. -/
theorem too_big_a_transaction :
    ∃ (h : List (State (Ext.none 3) × Act (Ext.none 3))) (s t : State (Ext.none 3)),
      Run (Init Layout.mkfs fun _ => Bytes.zero _) (step Layout.mkfs) h s ∧
      (∀ x ∈ h, StartsBracketed x.2) ∧ (∀ x ∈ h, WithinLimit x.1 x.2) ∧
      WithinLimit s (.run 2) ∧ step Layout.mkfs s (.run 2) = some t ∧
      t.sys.panicked = some "too big a transaction" := by
  have hlim : ∀ x ∈ hist (step Layout.mkfs) (switchedOn 3) tenBlocksEach, WithinLimit x.1 x.2 := by
    decide +kernel
  have he : ((exec (step Layout.mkfs) (switchedOn 3) tenBlocksEach).bind fun s =>
      (step Layout.mkfs s (.run 2)).map fun t =>
        (decide (WithinLimit s (.run 2)), t.sys.panicked)) =
      some (true, some "too big a transaction") := by decide +kernel
  obtain ⟨s, hs, he⟩ := Option.bind_eq_some_iff.mp he
  obtain ⟨t, ht, he⟩ := Option.map_eq_some_iff.mp he
  simp only [Prod.mk.injEq] at he
  refine ⟨hist (step Layout.mkfs) (switchedOn 3) tenBlocksEach, s, t, ?_, fun x hx =>
    starts_tenBlocksEach _ (mem_hist hx), hlim, of_decide_eq_true he.1, ht, he.2⟩
  exact exec_run (h := []) _ (Run.init (init_switchedOn Layout.mkfs)) hs

end Xv6.Log
