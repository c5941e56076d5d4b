/-
# `Xv6.Log.Crash` — crash atomicity of the redo log

Every run of the machine keeps the invariant and every process verified
(`safe_run`): any number of processes, any interleaving, crashes at any moment,
recoveries that crash themselves.

**Proved here.**

  * the recovered disk, all-or-nothing, and what a returned commit guarantees
    (`crash_atomic`)
  * reference counts, and what a cached block holds (`bread_current`)
-/
import Xv6.Log.Client

namespace Xv6.Log

open Machine Function List

variable {N : Nat} {X : Ext N} {L : Layout} {d₀ : BlockNo → Block} {strict : Prop}
variable {home : BlockNo → Prop} {ok : (e : X.Op) → X.Res e → Prop} {s t : State X} {p : Fin N}
  {a : Act X}

/-! ## Switching on -/

theorem OnDisk.of_clean {d : BlockNo → Block} (h : hdrN (d (L.at 0)) = 0) : OnDisk L d d := by
  have hnil := hdrBlocks_nil h
  refine ⟨by rw [h]; decide, ?_, ?_, ?_, ?_, fun _ _ _ => rfl⟩
  · rw [hnil]; exact L.pos
  · rw [hnil]; exact nodup_nil
  · simp [hnil]
  · simp [hnil]

/-- A crash leaves a state of the invariant. -/
theorem inv_afterCrash {s : Sys N X.Mem} (hD : strict → OnDisk L s.disk (s.durable d₀))
    (hc : ∀ u ∈ s.committed, u.op < s.nextop ∧ ∀ v ∈ s.lost ++ s.pending, u.op ≠ v.op)
    (hl : ∀ u ∈ s.lost ++ s.pending, u.op < s.nextop) :
    Inv L d₀ strict (afterCrash X s) := by
  refine ⟨⟨turns_afterCrash s, ⟨?_, fun i => ?_⟩, ?_, ?_, ?_, ?_, nodup_nil, ?_, ?_,
    fun _ => rfl, ?_, ?_, fun _ _ => ⟨fun _ => rfl, rfl⟩, ?_, ?_, hc, hl⟩, fun hst => ?_⟩
  · exact nodup_reverse.mpr (nodup_finRange _)
  · exact mem_reverse.mpr (mem_finRange i)
  · intro i j hi
    exact absurd (show (0 : UInt32) = ROOTDEV from hi) (by decide)
  · intro i
    simp [afterCrash]
  · rintro i (hi | hi)
    · exact absurd rfl hi
    · cases hi
  · intro i p hi; cases hi
  · intro i hi; cases hi
  · intro i hi; cases hi
  · intro i hi; cases hi
  · intro i hi; cases hi
  · intro p k hk; cases hk
  · intro u hu; cases hu
  · refine ⟨?_, ?_, ⟨Nat.zero_le _, L.pos⟩, ?_, ?_, hD hst, ?_, fun _ => rfl⟩
    · intro b hb; cases hb
    · intro u hu; cases hu
    · intro h; cases h
    · intro h; cases h
    · intro h; cases h

theorem idle_afterCrash (s : Sys N X.Mem) (p : Fin N) : Idle p (afterCrash X s) := by
  refine ⟨⟨rfl, nodup_nil, fun i => ?_, ?_, ?_⟩, rfl, ?_⟩
  · simp [afterCrash]
  · intro x hx; cases hx
  · intro x hx; cases hx
  · simp [afterCrash]

/-! ## Runs -/

/-- The actions considered: system calls that follow the discipline, and other
operations whose answers satisfy `ok`. -/
def Allowed (L : Layout) (home : BlockNo → Prop) (ok : (e : X.Op) → X.Res e → Prop)
    (s : State X) : Act X → Prop
  | .start _ c => Disciplined home ok c
  | .run p => ∀ o k r t, s.prog p = .op o k → perform L X p o s.sys = some (some r, t) →
      Answers ok o r
  | _ => True

theorem allowed_of_disciplined
    (h : ∀ p c, a = .start p c → Disciplined home (fun _ _ => True) c) :
    Allowed L home (fun _ _ => True) s a := by
  cases a with
  | start p c => exact h p c rfl
  | run p =>
    intro o k r t _ _
    cases o <;> trivial
  | _ => trivial

/-- The invariant of the machine. -/
def Good (L : Layout) (d₀ : BlockNo → Block) (strict : Prop)
    (ok : (e : X.Op) → X.Res e → Prop) (s : State X) : Prop :=
  Rules.Safe (rules L d₀ strict ok) Idle s.sys s.prog

theorem good_init (h : Init L d₀ s) : Good L d₀ strict ok s := by
  obtain ⟨s', hs'⟩ := h.fresh
  have hcom : s'.committed = [] := by
    have := h.committed
    rwa [hs'] at this
  have hlost : s'.lost ++ s'.pending = [] := by
    have := h.lost
    rwa [hs'] at this
  have hdisk : s'.disk = d₀ := by
    have := h.disk
    rwa [hs'] at this
  refine ⟨?_, fun p => ?_⟩
  · show Inv L d₀ strict s.sys
    rw [hs']
    refine inv_afterCrash (fun _ => ?_) ?_ ?_
    · unfold Sys.durable
      rw [hcom, hdisk]
      exact OnDisk.of_clean h.clean
    · rw [hcom]; simp
    · rw [hlost]; simp
  · rw [h.prog p]
    rw [hs']; exact idle_afterCrash s' p

/-- The recovery starts. -/
theorem inv_boot {s : Sys N X.Mem} (h : Inv L d₀ strict s) (hbt : s.booted = false)
    (hown : s.owner = none) : Inv L d₀ strict { s with owner := some p } := by
  have hB := h.base
  refine ⟨{ hB with toTurns := hB.boot hbt
                    pinned := fun hn => ?_, dirty := fun i hi => ?_,
                    switchedOn := fun _ hn => ?_ },
    fun hst => { h.durable hst with clean := fun hb => ?_ }⟩
  · cases hn
  · obtain ⟨-, q, hq, -⟩ := hB.dirty i hi
    have := hB.lock i q hq
    rw [(hB.switchedOn hbt hown).1 q] at this; cases this
  · cases hn
  · rw [show s.booted = true from hb] at hbt; cases hbt

theorem good_boot (h : Good L d₀ strict ok s)
    (hbt : s.sys.booted = false) (hown : s.sys.owner = none) :
    Good L d₀ strict ok ⟨{ s.sys with owner := some p }, update s.prog p (initlog L)⟩ := by
  have hB := h.inv.base
  obtain ⟨hrefs, hpins⟩ := hB.switchedOn hbt hown
  have hJ : Inv L d₀ strict { s.sys with owner := some p } := inv_boot h.inv hbt hown
  refine ⟨hJ, fun q => ?_⟩
  show (rules L d₀ strict ok).WP q (update s.prog p (initlog L) q) (fun _ => Idle q)
    { s.sys with owner := some p }
  by_cases hq : q = p
  · subst hq
    rw [update_self]
    have hH : Has q [] s.sys := by
      refine ⟨hrefs q, nodup_nil, fun i => ⟨fun hl => ?_, fun hi => ?_⟩, ?_, ?_⟩
      · have := hB.lock i q hl
        rwa [hrefs q] at this
      · cases hi
      · intro x hx; cases hx
      · intro x hx; cases hx
    have hO : Owns L d₀ strict q [] _ { s.sys with owner := some q } :=
      ⟨hJ, rfl, { hH with }, rfl⟩
    refine wp_initlog hO hbt ?_ fun hst => (h.inv.durable hst).nothing hbt
    show s.sys.pins.map _ = []
    rw [hpins]; rfl
  · rw [update_of_ne hq]
    refine (h.wp q).stable (obeys ok) (fun _ => fun _ _ _ _ hr hi => Idle.rely hi hr) h.inv hJ ?_
    refine Rely.ofEq rfl rfl rfl id ⟨fun he => absurd (Option.some.inj he).symm hq, fun he => ?_⟩
      fun he => ?_
    · rw [hown] at he; cases he
    · rw [hown] at he; cases he

theorem good_step (hhome : ∀ b, home b → strict → L.Home b)
    (h : Good L d₀ strict ok s) (ha : Allowed L home ok s a) (hs : step L s a = some t) :
    Good L d₀ strict ok t := by
  have hR : (rules L d₀ strict ok).Obeys := obeys ok
  have hIdle : ∀ p, (rules L d₀ strict ok).Stable p (Idle p) :=
    fun p _ _ _ _ hr hi => Idle.rely hi hr
  cases a with
  | run p =>
    refine Rules.safe_runThread hR hIdle h (runThread_of_runProc (fun o k hp => ?_) hs)
    exact if_pos fun r t hr => ha o k r t hp hr
  | start p c =>
    simp only [step] at hs
    split_ifs at hs with hc
    cases hs
    have hI : Idle p s.sys := by
      have := h.wp p
      cases hp : s.prog p with
      | ret a => rwa [hp] at this
      | op o k => rw [hp] at hc; cases hc.2.1
    refine Rules.Safe.start h (wp_compile hhome ha h.inv ⟨hI.has, ?_, hI.owner, hc.1, ?_⟩)
    · rw [hI.op]; rfl
    · intro i hi; cases hi
  | boot p =>
    simp only [step] at hs
    split_ifs at hs with hc
    cases hs
    exact good_boot h hc.1 hc.2.1
  | crash =>
    cases hs
    have hB := h.inv.base
    refine ⟨inv_afterCrash (fun hst => (h.inv.durable hst).onDisk) (fun u hu => ?_)
      (fun u hu => ?_), idle_afterCrash s.sys⟩
    · refine ⟨(hB.closed u hu).1, fun v hv => ?_⟩
      rcases mem_append.mp hv with hv | hv
      · exact (hB.closed u hu).2 v hv
      · exact ((hB.serials v hv).2.1 u hu).symm
    · rcases mem_append.mp hu with hu | hu
      · exact hB.gone u hu
      · exact (hB.serials u hu).1

/-- **Along every run** of allowed actions the invariant holds and every process
is verified. -/
theorem safe_run (hhome : ∀ b, home b → strict → L.Home b) {h : List (State X × Act X)}
    (r : Run (Init L d₀) (step L) h s)
    (hd : ∀ x ∈ h, Allowed L home ok x.1 x.2) : Good L d₀ strict ok s :=
  r.inv_of_steps (fun _ => good_init) (fun _ _ _ => good_step hhome) hd

/-! ## What an operation does to the history -/

/-- Only the last operation of the recovery lets the other processes in, what is
committed stays committed, and a buffer with references keeps its block.  The pins
change in `bunpin` and where `log_write` finds a block new to the header. -/
structure Effect (o : Op X.Op) (s t : Sys N X.Mem) : Prop where
  booted : t.booted = s.booted ∨ o = .boot ∧ t.disk = s.disk ∧ t.committed = s.committed
  committed : s.committed <+: t.committed
  key : ∀ i, (s.buf i).refcnt ≠ 0 → (t.buf i).blockno = (s.buf i).blockno
  pins : t.pins = s.pins ∨ (∃ i, o = .bunpin i ∧ t.pins = s.pins.erase i) ∨
    ∃ i, o = .logWrite i ∧ (s.buf i).blockno ∉ s.lh ∧ t.pins = s.pins ++ [i]

theorem Effect.same {o : Op X.Op} {s t : Sys N X.Mem} (hb : t.booted = s.booted)
    (hc : t.committed = s.committed) (hk : ∀ i, (t.buf i).blockno = (s.buf i).blockno)
    (hp : t.pins = s.pins) : Effect o s t :=
  ⟨.inl hb, hc ▸ prefix_rfl, fun i _ => hk i, .inl hp⟩

theorem perform_effect {o : Op X.Op} {s t : Sys N X.Mem} {a : Option (Op.Res (X := X) o)}
    (h : perform L X p o s = some (a, t)) : Effect o s t := by
  have hset : ∀ {g : BufPtr → Buf N} {i : BufPtr} {x : Buf N}, g = update s.buf i x →
      x.blockno = (s.buf i).blockno → ∀ j, (g j).blockno = (s.buf j).blockno :=
    fun hg hx => hg ▸ update_field (·.blockno) hx
  have hsame : ∀ {msg : Option String}, Effect o s { s with panicked := msg } :=
    Effect.same rfl rfl (fun _ => rfl) rfl
  unfold perform at h
  split at h
  · cases h
  · cases o with
    | bget b =>
      have hb : bget p b s = (a, t) := Option.some.inj h
      rcases bget_cases s p b with ⟨i, -, he⟩ | ⟨i, -, h0, he⟩ | he <;> rw [he] at hb <;>
        obtain ⟨-, rfl⟩ := Prod.mk.inj hb
      · exact .same rfl rfl (fun _ => rfl) rfl
      · refine ⟨.inl rfl, prefix_rfl, fun j hj => ?_, .inl rfl⟩
        have hji : j ≠ i := by rintro rfl; exact hj h0
        exact congrArg Buf.blockno (update_of_ne hji ..)
      · exact hsame
    | acquiresleep i =>
      simp only at h
      split_ifs at h
      cases h; exact .same rfl rfl (hset rfl rfl) rfl
    | diskRead i | setData i d => cases h; exact .same rfl rfl (hset rfl rfl) rfl
    | diskWrite i =>
      simp only at h
      split at h
      · cases h
        rw [diskWrite_eq]
        split
        · exact ⟨.inl rfl, prefix_append _ _, fun j _ => hset (g := (s.flush i).buf) rfl rfl j,
            .inl rfl⟩
        · exact .same rfl rfl (hset rfl rfl) rfl
      · cases h; exact hsame
    | releasesleep i =>
      simp only at h
      split at h <;> cases h
      · exact .same rfl rfl (hset rfl rfl) rfl
      · exact hsame
    | deref i =>
      cases h
      rcases deref_cases s p i with he | he <;> rw [he] <;> exact .same rfl rfl (fun _ => rfl) rfl
    | bunpin i =>
      cases h
      exact ⟨.inl rfl, prefix_rfl, fun j _ => hset (g := (bunpin i s).buf) rfl rfl j,
        .inr (.inl ⟨i, rfl, rfl⟩)⟩
    | beginOp =>
      split_ifs at h
      simp only [beginOp] at h
      split at h <;> cases h <;> exact .same rfl rfl (fun _ => rfl) rfl
    | logWrite i =>
      have hl : logWrite L p i s = (a, t) := Option.some.inj h
      rcases logWrite_cases L p i s with ⟨msg, he⟩ | ⟨-, he⟩ | ⟨hb, -, he⟩ <;> rw [he] at hl <;>
        obtain ⟨-, rfl⟩ := Prod.mk.inj hl
      · exact hsame
      · exact .same rfl rfl (hset rfl rfl) rfl
      · exact ⟨.inl rfl, prefix_rfl, fun j _ => hset (g := (s.pin p i).buf) rfl rfl j,
          .inr (.inr ⟨i, rfl, hb, rfl⟩)⟩
    | endOp =>
      have hl : endOp p s = (a, t) := Option.some.inj h
      unfold endOp at hl
      split at hl
      · cases hl; exact .same rfl rfl (fun _ => rfl) rfl
      · split at hl <;> cases hl <;> exact .same rfl rfl (fun _ => rfl) rfl
    | boot =>
      cases h
      exact ⟨.inr ⟨rfl, rfl, rfl⟩, prefix_rfl, fun _ _ => rfl, .inl rfl⟩
    | ext e =>
      obtain ⟨⟨r, m⟩, -, hx⟩ := Option.map_eq_some_iff.mp h
      cases hx; exact .same rfl rfl (fun _ => rfl) rfl
    | _ => cases h; exact .same rfl rfl (fun _ => rfl) rfl

theorem committed_step (h : step L s a = some t) : s.sys.committed <+: t.sys.committed := by
  cases a with
  | run p =>
    obtain ⟨o, k, a, -, hp⟩ := step_run h
    exact (perform_effect hp).committed
  | start p c | boot p =>
    simp only [step] at h
    split_ifs at h
    cases h; exact prefix_rfl
  | crash => cases h; exact prefix_rfl

/-! ## Crash atomicity -/

/-- Every update any system call has logged: committed, wiped out by a crash, or
waiting for its group's commit. -/
def Sys.logged {M : Type} (s : Sys N M) : List Update := s.committed ++ s.lost ++ s.pending

/-- **Crash atomicity.**  Take any run in which processes run system calls that
follow the discipline outside the log area, with crashes anywhere.  When a
recovery completes, every home block is as the committed updates leave it; of the
updates one system call logged, either all are committed or none; what is
committed stays committed; and when the `end_op` that commits returns, nothing is
left waiting. -/
theorem crash_atomic {h : List (State X × Act X)} {s : State X}
    (r : Run (Init L d₀) (step L) h s)
    (hd : ∀ x ∈ h, ∀ p c, x.2 = .start p c → Disciplined L.Home (fun _ _ => True) c) :
    (∀ p t, step L s (.run p) = some t → s.sys.booted = false → t.sys.booted = true →
      ∀ b, L.Home b → t.sys.disk b = content d₀ t.sys.committed b) ∧
    (∀ u ∈ s.sys.logged, ∀ v ∈ s.sys.logged, u.op = v.op →
      (u ∈ s.sys.committed ↔ v ∈ s.sys.committed)) ∧
    (∀ a t, step L s a = some t → s.sys.committed <+: t.sys.committed) ∧
    ∀ p k, s.prog p = .op .endCommit k → s.sys.pending = [] := by
  have hG : Good L d₀ True (fun _ _ => True) s := by
    exact safe_run (fun b (hb : L.Home b) _ => hb) r fun x hx => allowed_of_disciplined (hd x hx)
  have hR : (rules (X := X) L d₀ True fun _ _ => True).Obeys := obeys _
  have hB := hG.inv.base
  have hD := hG.inv.durable trivial
  refine ⟨fun p t hs hb ht b hh => ?_, fun u hu v hv huv => ?_, fun a t => committed_step,
    fun p k hp => ?_⟩
  · obtain ⟨o, k, a, hp, hper⟩ := step_run hs
    -- the operation that lets the others in is the last one of `initlog`
    rcases (perform_effect hper).booted with he | ⟨rfl, hdisk, hcom⟩
    · rw [he, hb] at ht; cases ht
    · obtain ⟨-, -, -, -, -, hst⟩ := hG.pre hR hp
      have hnil := hdrBlocks_nil (hst trivial).2
      rw [hdisk, hcom]
      exact hD.onDisk.placed b hh (by rw [hnil]; exact not_mem_nil)
  · have hsep : ∀ u ∈ s.sys.logged, ∀ v ∈ s.sys.committed, u.op = v.op →
        u ∈ s.sys.committed := by
      intro u hu v hv huv
      rcases mem_append.mp hu with hu | hu
      · rcases mem_append.mp hu with hu | hu
        · exact hu
        · exact absurd huv.symm ((hB.closed v hv).2 u hu)
      · exact absurd huv ((hB.serials u hu).2.1 v hv)
    exact ⟨fun h => hsep v hv u h huv.symm, fun h => hsep u hu v h huv⟩
  · obtain ⟨-, -, -, -, -, hst⟩ := hG.pre hR hp
    exact (hst trivial).1

/-! ### A run with a crash in it -/

/-- A system call that logs one block. -/
def writeBlock (b : BlockNo) (d : Block) : SysCall (Ext.none N) := do
  Prog.call (S := callSig (Ext.none N)) .beginOp
  let i ← Prog.call (S := callSig (Ext.none N)) (.bread b)
  Prog.call (S := callSig (Ext.none N)) (.setData i d)
  Prog.call (S := callSig (Ext.none N)) (.logWrite i)
  Prog.call (S := callSig (Ext.none N)) (.brelse i)
  Prog.call (S := callSig (Ext.none N)) .endOp

theorem disciplined_writeBlock {home : BlockNo → Prop} {b : BlockNo} {d : Block} (hb : home b) :
    Disciplined home (fun _ _ => True) (writeBlock (N := N) b d) := by
  have hdrop : ∀ i : BufPtr, dropBuf i [(i, b)] = [] := fun i => by simp [dropBuf]
  exact ⟨rfl, fun i _ => ⟨rfl, ⟨b, by simp⟩, rfl, ⟨b, by simp, hb⟩, by simp,
    by simp [Local.none], rfl, hdrop i, rfl, hdrop i⟩⟩

/-- Boot; log block 40 and crash when the commit header is on the disk, nothing
installed yet; boot again, up to the last operation of the recovery. -/
def crashSchedule : List (Act (Ext.none 1)) :=
  .boot 0 :: List.replicate 20 (.run 0) ++
    .start 0 (writeBlock 40 fun _ => 1) :: List.replicate 34 (.run 0) ++
    .crash :: .boot 0 :: List.replicate 34 (.run 0)

theorem disciplined_crashSchedule {c : SysCall (Ext.none 1)} (h : Act.start 0 c ∈ crashSchedule) :
    Disciplined Layout.mkfs.Home (fun _ _ => True) c := by
  obtain rfl : c = writeBlock 40 fun _ => 1 := by
    simpa [crashSchedule, mem_replicate] using h
  exact disciplined_writeBlock (.inr (by decide))

set_option maxRecDepth 4000 in
/-- The recovery after that crash puts the committed block in place. -/
theorem crash_atomic_recovered :
    ∃ (h : List (State (Ext.none 1) × Act (Ext.none 1))) (s t : State (Ext.none 1)),
      Run (Init Layout.mkfs fun _ => Bytes.zero _) (step Layout.mkfs) h s ∧
      step Layout.mkfs s (.run 0) = some t ∧ t.sys.committed.map (·.blockno) = [40] ∧
      t.sys.disk 40 = content (fun _ => Bytes.zero _) t.sys.committed 40 := by
  have he : ((exec (step Layout.mkfs) (switchedOn 1) crashSchedule).bind fun s =>
      (step Layout.mkfs s (.run 0)).map fun t =>
        (s.sys.booted, t.sys.booted, t.sys.committed.map (·.blockno))) =
      some (false, true, [40]) := by decide +kernel
  obtain ⟨s, hs, he⟩ := Option.bind_eq_some_iff.mp he
  obtain ⟨t, ht, he⟩ := Option.map_eq_some_iff.mp he
  have r := exec_run _ (Run.init (init_switchedOn Layout.mkfs)) hs
  have hd : ∀ x ∈ [] ++ hist (step Layout.mkfs) (switchedOn 1) crashSchedule,
      ∀ p c, x.2 = .start p c → Disciplined Layout.mkfs.Home (fun _ _ => True) c := by
    intro x hx p c hc
    obtain rfl := Subsingleton.elim p 0
    have hx := mem_hist hx
    exact disciplined_crashSchedule (hc ▸ hx)
  simp only [Prod.mk.injEq] at he
  exact ⟨_, s, t, r, ht, he.2.2,
    (crash_atomic r hd).1 0 t ht he.1 he.2.1 40 (.inr (by decide))⟩

/-! ## The buffer cache -/

/-- No block is cached twice; a reference count counts those who hold, wait for or pin the
buffer.  After the recovery a buffer that nobody is changing holds what was last logged for
its block, and so does the disk unless the block is pinned. -/
structure Current {M : Type} (L : Layout) (d₀ : BlockNo → Block) (s : Sys N M) : Prop where
  uniq : ∀ i j, (s.buf i).refcnt ≠ 0 → (s.buf j).refcnt ≠ 0 →
    (s.buf i).blockno = (s.buf j).blockno → i = j
  refcnt : ∀ i, (s.buf i).refcnt = (∑ p, (s.refs p).count i) + s.pins.count i
  locked : ∀ i p, (s.buf i).lock = some p → (s.buf i).refcnt ≠ 0
  cached : s.booted = true → ∀ i, (s.buf i).valid = true → (s.buf i).dirty = false →
    L.Home (s.buf i).blockno → (s.buf i).data = s.cur d₀ (s.buf i).blockno
  inPlace : s.booted = true → ∀ b, L.Home b →
    (∃ i ∈ s.pins, (s.buf i).blockno = b) ∨ s.disk b = s.cur d₀ b

/-- **Along every run** of system calls that follow the discipline, with crashes anywhere,
`bread` finds what was last logged. -/
theorem bread_current {h : List (State X × Act X)} {s : State X} (r : Run (Init L d₀) (step L) h s)
    (hd : ∀ x ∈ h, ∀ p c, x.2 = .start p c → Disciplined L.Home (fun _ _ => True) c) :
    Current L d₀ s.sys := by
  have hG : Good L d₀ True (fun _ _ => True) s :=
    safe_run (fun b (hb : L.Home b) _ => hb) r fun x hx => allowed_of_disciplined (hd x hx)
  have hB := hG.inv.base
  have hD := hG.inv.durable trivial
  refine ⟨fun i j hi hj => ?_, hB.refcnt, fun i p hl h0 => ?_, hD.cached, hD.inPlace⟩
  · exact hB.uniq i j (hB.dev i (.inl hi)) (hB.dev j (.inl hj))
  · have hp : 0 < (s.sys.refs p).count i := count_pos_iff.mpr (hB.lock i p hl)
    have hle : (s.sys.refs p).count i ≤ ∑ q, (s.sys.refs q).count i :=
      Finset.single_le_sum (f := fun q => (s.sys.refs q).count i) (fun _ _ => Nat.zero_le _)
        (Finset.mem_univ p)
    have := hB.refcnt i
    omega

set_option maxRecDepth 4000 in
/-- After that recovery nothing is pinned, and block 40 is in place. -/
theorem bread_current_recovered : ∃ (h : List (State (Ext.none 1) × Act (Ext.none 1)))
    (s : State (Ext.none 1)), Run (Init Layout.mkfs fun _ => Bytes.zero _) (step Layout.mkfs) h s ∧
      s.sys.committed.map (·.blockno) = [40] ∧
      s.sys.disk 40 = s.sys.cur (fun _ => Bytes.zero _) 40 := by
  have he : ((exec (step Layout.mkfs) (switchedOn 1) (crashSchedule ++ [.run 0])).map fun s =>
      (s.sys.booted, s.sys.pins, s.sys.committed.map (·.blockno))) = some (true, [], [40]) := by
    decide +kernel
  obtain ⟨s, hs, he⟩ := Option.map_eq_some_iff.mp he
  have r := exec_run _ (Run.init (init_switchedOn Layout.mkfs)) hs
  have hc := bread_current r fun x hx p c hc => by
    obtain rfl := Subsingleton.elim p 0
    have hx := mem_hist hx
    rw [hc] at hx
    exact disciplined_crashSchedule (by simpa using hx)
  simp only [Prod.mk.injEq] at he
  obtain ⟨hb, hpins, hcom⟩ := he
  refine ⟨_, s, r, hcom, (hc.inPlace hb 40 (.inr (by decide))).resolve_left ?_⟩
  simp [hpins]

end Xv6.Log
