/-
# `Xv6.Sched.Steps` — what one step of the scheduler machine can be

`step` as a relation, one constructor for each kind of statement; the proofs
about runs go by cases on it (`next_of_step`).
-/
import Xv6.Sched.Machine

namespace Xv6.Sched

open Function

variable {M N L : Nat}

section
variable (s : Sys M N L) {p q : Fin N}

theorem setProc_self (p : Fin N) (x : Proc N L) : (s.setProc p x).proc p = x := update_self ..

theorem setProc_ne (x : Proc N L) (h : q ≠ p) : (s.setProc p x).proc q = s.proc q :=
  update_of_ne h ..

theorem goto_self (p : Fin N) (pc : PC N L) : (s.goto p pc).proc p = { s.proc p with pc := pc } :=
  setProc_self s p _

theorem goto_ne (pc : PC N L) (h : q ≠ p) : (s.goto p pc).proc q = s.proc q := setProc_ne s _ h

theorem setCpu_self (c : Fin M) (k : Cpu N) : (s.setCpu c k).cpu c = k := update_self ..

theorem setCpu_ne {c d : Fin M} (k : Cpu N) (h : d ≠ c) : (s.setCpu c k).cpu d = s.cpu d :=
  update_of_ne h ..

theorem cpuAt_self (c : Fin M) (w : Where N) : (s.cpuAt c w).cpu c = { s.cpu c with pos := w } :=
  setCpu_self s c _

end

/-- CPU `c` executes the thread of `p`, which is at `pc`. -/
structure On (s : Sys M N L) (c : Fin M) (p : Fin N) (pc : PC N L) : Prop where
  pos : (s.cpu c).pos = .running p
  pc : (s.proc p).pc = pc

/-- Moves between open points that change nothing else. -/
inductive Walk (s : Sys M N L) (c : Fin M) : Open N L → Open N L → Prop
  | wakeup {chan} : Walk s c .run (.wakeup chan 0)
  | kill {pid} : Walk s c .run (.kill pid 0)
  | fork : Walk s c .run (.forkScan 0)
  | wakeupSelf {chan} {q : Fin N} (hq : (s.cpu c).proc = some q) :
      Walk s c (.wakeup chan q) (.wakeup chan (q + 1))
  | wakeupEnd {chan j} (hj : ¬ j < N) : Walk s c (.wakeup chan j) .run
  | killNext {pid} {q : Fin N} (hp : (s.proc q).pid ≠ pid) : Walk s c (.kill pid q) (.kill pid (q + 1))
  | killEnd {pid j} (hj : ¬ j < N) : Walk s c (.kill pid j) .run
  | forkNext {q : Fin N} : Walk s c (.forkScan q) (.forkScan (q + 1))
  | forkEnd {j} (hj : ¬ j < N) : Walk s c (.forkScan j) .run

/-- `acquire(&p->lock)` by the thread of `p` itself. -/
inductive Take : PC N L → PC N L → Prop
  | yield {r} : Take (.yieldLock r) (.yieldState r)
  | sleep {chan lk} : Take (.sleepLock chan lk) (.sleepRelease chan lk)
  | exit {lk} : Take (.exitLock lk) (.exitState lk)

/-- `release(&p->lock)` by the thread of `p` itself. -/
inductive Drop : PC N L → Open N L → Prop
  | yield {r} : Drop (.resumed (.yield r)) r
  | sleep {lk} : Drop (.sleepUnlock lk) (.sleepRelock lk)
  | forkret : Drop .forkret .run

inductive Next (Y : Layout N) (s : Sys M N L) : Act M N L → Sys M N L → Prop
  -- the scheduler's thread
  | rescan {c j} (h : (s.cpu c).pos = .scan j) (hj : ¬ j < N) :
      Next Y s (.tick c) (s.cpuAt c (.scan 0))
  | lockProc {c} {p : Fin N} (h : (s.cpu c).pos = .scan p) (hl : s.lock p = none) :
      Next Y s (.tick c) ((s.setLock p (some c)).cpuAt c (.check p))
  | choose {c p} (h : (s.cpu c).pos = .check p) (hs : (s.proc p).state = .runnable) :
      Next Y s (.tick c) (s.cpuAt c (.setRunning p))
  | pass {c p} (h : (s.cpu c).pos = .check p) : Next Y s (.tick c) (s.cpuAt c (.release p))
  | setRunning {c p} (h : (s.cpu c).pos = .setRunning p) : Next Y s (.tick c)
      ((s.setProc p { s.proc p with state := .running }).cpuAt c (.setProc p))
  | setProc {c p} (h : (s.cpu c).pos = .setProc p) : Next Y s (.tick c)
      (s.setCpu c { s.cpu c with proc := some p, pos := .save p 0 })
  | saveSched {c p i} (h : (s.cpu c).pos = .save p i) (hi : i < NREG) : Next Y s (.tick c)
      (s.setCpu c { s.cpu c with
        context := update (s.cpu c).context ⟨i, hi⟩ ((s.cpu c).regs ⟨i, hi⟩)
        pos := .save p (i + 1) })
  | savedSched {c p i} (h : (s.cpu c).pos = .save p i) : Next Y s (.tick c) (s.cpuAt c (.load p 0))
  | loadProc {c p i} (h : (s.cpu c).pos = .load p i) (hi : i < NREG) : Next Y s (.tick c)
      (s.setCpu c { s.cpu c with
        regs := update (s.cpu c).regs ⟨i, hi⟩ ((s.proc p).context ⟨i, hi⟩)
        pos := .load p (i + 1) })
  | enter {c p i} (h : (s.cpu c).pos = .load p i) (hi : ¬ i < NREG) :
      Next Y s (.tick c) (s.cpuAt c (.running p))
  | clear {c p} (h : (s.cpu c).pos = .back p) : Next Y s (.tick c)
      (s.setCpu c { s.cpu c with proc := none, pos := .release p })
  | releaseProc {c p} (h : (s.cpu c).pos = .release p) : Next Y s (.tick c)
      ((s.setLock p none).cpuAt c (.scan (p + 1)))
  | wakeSkip {c chan ret} {q : Fin N} (h : (s.cpu c).pos = .wake chan q ret) :
      Next Y s (.tick c) (s.cpuAt c (.wake chan (q + 1) ret))
  | wake {c chan ret} {q : Fin N} (h : (s.cpu c).pos = .wake chan q ret) (hl : s.lock q = none) :
      Next Y s (.tick c)
        ((s.setProc q ((s.proc q).rouse chan)).cpuAt c (.wake chan (q + 1) ret))
  | wakeEnd {c chan j ret} (h : (s.cpu c).pos = .wake chan j ret) :
      Next Y s (.tick c) (s.cpuAt c (.scan ret))
  | intr {c chan j} (h : (s.cpu c).pos = .scan j) :
      Next Y s (.intr c chan) (s.cpuAt c (.wake chan 0 j))
  | work {c i v} (hs : s.switching c = false) : Next Y s (.work c i v)
      (s.setCpu c { s.cpu c with regs := update (s.cpu c).regs i v })
  -- open points of a process's thread
  | walk {a c p o o'} (ha : a = .tick c ∨ ∃ f, a = .call c f) (h : On s c p (.op o))
      (w : Walk s c o o') : Next Y s a (s.goto p (.op o'))
  | rouse {c p chan} {q : Fin N} (h : On s c p (.op (.wakeup chan q)))
      (hq : (s.cpu c).proc ≠ some q) (hl : s.lock q = none) : Next Y s (.tick c)
      ((s.setProc q ((s.proc q).rouse chan)).goto p (.op (.wakeup chan (q + 1))))
  | hit {c p pid} {q : Fin N} (h : On s c p (.op (.kill pid q))) (hl : s.lock q = none) :
      Next Y s (.tick c) ((s.setProc q (s.proc q).hit).goto p (.op .run))
  | forkSet {c p np} (h : On s c p (.op (.forkSet np))) (hl : s.lock np = none) :
      Next Y s (.tick c) ((s.setProc np { s.proc np with state := .runnable }).goto p (.op .run))
  | relock {c p lk} (h : On s c p (.op (.sleepRelock lk))) :
      Next Y s (.tick c) ((s.setLk lk (some c)).goto p (.op .run))
  | setLk {c f lk l} : Next Y s (.call c f) (s.setLk lk l)
  | reap {c p} {q : Fin N} (h : On s c p (.op .run)) (hl : s.lock q = none)
      (hz : (s.proc q).state = .zombie) :
      Next Y s (.call c (.reap q)) (s.setProc q (s.proc q).free)
  | alloc {c p ok} {np : Fin N} (h : On s c p (.op (.forkScan np))) (hl : s.lock np = none)
      (hu : (s.proc np).state = .unused) : Next Y s (.alloc c ok) (alloc Y s p np ok)
  -- the three ways into the scheduler
  | timer {c p o} (h : On s c p (.op o)) : Next Y s (.timer c) (s.goto p (.yieldLock o))
  | sleep {c p chan lk} (h : On s c p (.op .run)) :
      Next Y s (.call c (.sleep chan lk)) (s.goto p (.sleepLock chan lk))
  | exit {c p lk} (h : On s c p (.op .run)) :
      Next Y s (.call c (.exit lk)) (s.goto p (.exitLock lk))
  | take {c p pc pc'} (h : On s c p pc) (w : Take pc pc') (hl : s.lock p = none) :
      Next Y s (.tick c) ((s.setLock p (some c)).goto p pc')
  | yieldState {c p r} (h : On s c p (.yieldState r)) : Next Y s (.tick c)
      (s.setProc p { s.proc p with state := .runnable, pc := .sched (.yield r) })
  | sleepRelease {c p chan lk} (h : On s c p (.sleepRelease chan lk)) :
      Next Y s (.tick c) ((s.setLk lk none).goto p (.sleepChan chan lk))
  | sleepChan {c p chan lk} (h : On s c p (.sleepChan chan lk)) : Next Y s (.tick c)
      (s.setProc p { s.proc p with chan := some chan, pc := .sleepState chan lk })
  | sleepState {c p chan lk} (h : On s c p (.sleepState chan lk)) : Next Y s (.tick c)
      (s.setProc p { s.proc p with state := .sleeping, pc := .sched (.sleep lk) })
  | exitState {c p lk} (h : On s c p (.exitState lk)) : Next Y s (.tick c)
      (s.setProc p { s.proc p with state := .zombie, pc := .exitRelease lk })
  | exitRelease {c p lk} (h : On s c p (.exitRelease lk)) :
      Next Y s (.tick c) ((s.setLk lk none).goto p (.sched .exit))
  -- swtch
  | sched {c p k} (h : On s c p (.sched k)) : Next Y s (.tick c)
      (s.setProc p { s.proc p with saved := (s.cpu c).regs, pc := .save 0 k })
  | save {c p i k} (h : On s c p (.save i k)) (hi : i < NREG) : Next Y s (.tick c)
      (s.setProc p { s.proc p with
        context := update (s.proc p).context ⟨i, hi⟩ ((s.cpu c).regs ⟨i, hi⟩)
        pc := .save (i + 1) k })
  | saved {c p i k} (h : On s c p (.save i k)) (hi : ¬ i < NREG) :
      Next Y s (.tick c) (s.goto p (.load 0 k))
  | load {c p i k} (h : On s c p (.load i k)) (hi : i < NREG) : Next Y s (.tick c)
      ((s.setCpu c { s.cpu c with
        regs := update (s.cpu c).regs ⟨i, hi⟩ ((s.cpu c).context ⟨i, hi⟩) }).goto p
          (.load (i + 1) k))
  | leave {c p i k} (h : On s c p (.load i k)) :
      Next Y s (.tick c) ((s.cpuAt c (.back p)).goto p (.resumed k))
  -- and out of it
  | drop {c p pc o} (h : On s c p pc) (w : Drop pc o) :
      Next Y s (.tick c) ((s.setLock p none).goto p (.op o))
  | sleepTidy {c p lk} (h : On s c p (.resumed (.sleep lk))) : Next Y s (.tick c)
      (s.setProc p { s.proc p with chan := none, pc := .sleepUnlock lk })

section
variable {Y : Layout N} {s t : Sys M N L} {c : Fin M} {p : Fin N}

theorem next_of_tickSched (h : tickSched s c = some t) : Next Y s (.tick c) t := by
  unfold tickSched at h
  split at h
  next j hpos =>
    split_ifs at h with hj hl
    · cases h; exact .lockProc hpos hl
    · cases h; exact .rescan hpos hj
  next p hpos =>
    split_ifs at h with hs
    · cases h; exact .choose hpos hs
    · cases h; exact .pass hpos
  next p hpos => cases h; exact .setRunning hpos
  next p hpos => cases h; exact .setProc hpos
  next p i hpos =>
    split_ifs at h with hi
    · cases h; exact .saveSched hpos hi
    · cases h; exact .savedSched hpos
  next p i hpos =>
    split_ifs at h with hi
    · cases h; exact .loadProc hpos hi
    · cases h; exact .enter hpos hi
  next => cases h
  next p hpos => cases h; exact .clear hpos
  next p hpos => cases h; exact .releaseProc hpos
  next chan j ret hpos =>
    split_ifs at h with hj hq hl
    · cases h; exact .wakeSkip (q := ⟨j, hj⟩) hpos
    · cases h; exact .wake hpos hl
    · cases h; exact .wakeEnd hpos

theorem next_of_tickOpen {o : Open N L} (hon : On s c p (.op o)) (h : tickOpen s c p o = some t) :
    Next Y s (.tick c) t := by
  have hwalk : ∀ {o'}, Walk s c o o' → Next Y s (.tick c) (s.goto p (.op o')) :=
    fun w => .walk (.inl rfl) hon w
  cases o with
  | run => cases h
  | wakeup chan j =>
    simp only [tickOpen] at h
    split_ifs at h with hj hq hl
    · cases h; exact hwalk (.wakeupSelf hq)
    · cases h; exact .rouse hon hq hl
    · cases h; exact hwalk (.wakeupEnd hj)
  | kill pid j =>
    simp only [tickOpen] at h
    split_ifs at h with hj hl hp
    · cases h; exact .hit hon hl
    · cases h; exact hwalk (.killNext hp)
    · cases h; exact hwalk (.killEnd hj)
  | forkScan j =>
    simp only [tickOpen] at h
    split_ifs at h with hj
    · cases h; exact hwalk (.forkNext (q := ⟨j, hj⟩))
    · cases h; exact hwalk (.forkEnd hj)
  | forkSet np =>
    simp only [tickOpen] at h
    split_ifs at h with hl
    cases h; exact .forkSet hon hl
  | sleepRelock lk =>
    simp only [tickOpen] at h
    split_ifs at h
    cases h; exact .relock hon

theorem next_of_tickProc (hpos : (s.cpu c).pos = .running p) (h : tickProc s c p = some t) :
    Next Y s (.tick c) t := by
  have hon : ∀ {pc : PC N L}, (s.proc p).pc = pc → On s c p pc := fun hpc => ⟨hpos, hpc⟩
  unfold tickProc at h
  split at h
  next o hpc => exact next_of_tickOpen (hon hpc) h
  next r hpc => split_ifs at h with hl; cases h; exact .take (hon hpc) .yield hl
  next r hpc => cases h; exact .yieldState (hon hpc)
  next chan lk hpc => split_ifs at h with hl; cases h; exact .take (hon hpc) .sleep hl
  next chan lk hpc => split_ifs at h; cases h; exact .sleepRelease (hon hpc)
  next chan lk hpc => cases h; exact .sleepChan (hon hpc)
  next chan lk hpc => cases h; exact .sleepState (hon hpc)
  next lk hpc => cases h; exact .drop (hon hpc) .sleep
  next lk hpc => split_ifs at h with hl; cases h; exact .take (hon hpc) .exit hl
  next lk hpc => cases h; exact .exitState (hon hpc)
  next lk hpc => split_ifs at h; cases h; exact .exitRelease (hon hpc)
  next k hpc => split_ifs at h; cases h; exact .sched (hon hpc)
  next i k hpc =>
    split_ifs at h with hi
    · cases h; exact .save (hon hpc) hi
    · cases h; exact .saved (hon hpc) hi
  next i k hpc =>
    split_ifs at h with hi
    · cases h; exact .load (hon hpc) hi
    · cases h; exact .leave (hon hpc)
  next r hpc => cases h; exact .drop (hon hpc) .yield
  next lk hpc => cases h; exact .sleepTidy (hon hpc)
  next => cases h
  next hpc => cases h; exact .drop (hon hpc) .forkret

theorem next_of_call {f : Call N L} (hon : On s c p (.op .run)) (h : call s c p f = some t) :
    Next Y s (.call c f) t := by
  cases f with
  | acquire lk | release lk =>
    simp only [call] at h
    split_ifs at h
    cases h; exact .setLk
  | sleep chan lk => cases h; exact .sleep hon
  | wakeup chan => cases h; exact .walk (.inr ⟨_, rfl⟩) hon .wakeup
  | kill pid => cases h; exact .walk (.inr ⟨_, rfl⟩) hon .kill
  | fork => cases h; exact .walk (.inr ⟨_, rfl⟩) hon .fork
  | exit lk =>
    simp only [call] at h
    split_ifs at h
    cases h; exact .exit hon
  | reap q =>
    simp only [call] at h
    split_ifs at h with hq
    cases h; exact .reap hon hq.1 hq.2

/-- The branches of `step`. -/
theorem next_of_step {a : Act M N L} (h : step Y s a = some t) : Next Y s a t := by
  cases a with
  | tick c =>
    simp only [step] at h
    split at h
    · next p hpos => exact next_of_tickProc hpos h
    · exact next_of_tickSched h
  | work c i v =>
    simp only [step] at h
    split_ifs at h with hs
    cases h; exact .work (by simpa using hs)
  | call c f =>
    simp only [step] at h
    split at h
    · next p hpos =>
      split_ifs at h with hpc
      exact next_of_call ⟨hpos, hpc⟩ h
    · cases h
  | alloc c ok =>
    simp only [step] at h
    split at h
    · next p hpos =>
      split at h
      · next j hpc =>
        split_ifs at h with hj hu
        cases h; exact @Next.alloc M N L Y s c p ok ⟨j, hj⟩ ⟨hpos, hpc⟩ hu.1 hu.2
      · cases h
    · cases h
  | timer c =>
    simp only [step] at h
    split at h
    · next p hpos =>
      split at h
      · next o hpc =>
        split_ifs at h
        cases h; exact .timer ⟨hpos, hpc⟩
      · cases h
    · cases h
  | intr c chan =>
    simp only [step] at h
    split at h
    · next j hpos => cases h; exact .intr hpos
    · cases h

end

end Xv6.Sched
