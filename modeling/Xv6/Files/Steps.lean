/-
# `Xv6.Files.Steps` — the transitions of the file machine

`Next s a t` lists what a step can do: a private step of a process (`Own`), or one
of the steps that touch a table.  `Alloc` and `Dup` name the points from which
`filealloc` and `filedup` are called, with where the call goes on.
-/
import Xv6.Files.Account

namespace Xv6.Files

open Function

variable {N F K P I : Nat}

/-- Where a call goes on when `fileclose` returns. -/
def Kont.pc : Kont F K I → PC N F K P I
  | .ret _ => .run
  | .put ip => .openPut ip
  | .close f => .close f (.ret none)
  | .clear fd => .clear fd

def Proc.resume (r : Proc N F K P I) (k : Kont F K I) : Proc N F K P I :=
  { r with
    pc := k.pc
    ret := match k with
      | .ret v => v
      | _ => r.ret }

theorem resume_eq (s : Sys N F K P I) (p : Fin N) (k : Kont F K I) :
    s.resume p k = s.setProc p ((s.proc p).resume k) := by
  cases k <;> rfl

/-- The process that makes a step: at the start of a call, or inside one. -/
def Acts (s : Sys N F K P I) (a : Act N K P I) (p : Fin N) : Prop :=
  (∃ c, a = .call p c ∧ (s.proc p).pc = .run) ∨ ∃ mem ok, a = .run p mem ok ∧ (s.proc p).pc ≠ .run

/-- `filealloc` has returned `f`. -/
inductive Alloc : PC N F K P I → Fin F → PC N F K P I → Prop
  | open {f} (o : Opened I) : Alloc (.openFile o) f (.openFd f o)
  | pipe0 {f} : Alloc .pipeF0 f (.pipeF1 f)
  | pipe1 {f} (f0 : Fin F) : Alloc (.pipeF1 f0) f (.pipeMem f0 f)

/-- `filedup(f)` is called, and returns. -/
inductive Dup (r : Proc N F K P I) : Fin F → Proc N F K P I → Prop
  | dup {f fd} (h : r.pc = .dupRef f fd) :
      Dup r f { r with pc := .run, ret := some fd }
  | fork {f np} {i : Fin K} (h : r.pc = .forkDup np i) (hf : r.ofile i = some f) :
      Dup r f { r with pc := .forkStore np i f }

/-- The file structure after its last reference is gone. -/
def File.closed (f : File P I) : File P I := { f with ref := 0, type := .none }

/-- One side of a pipe is closed. -/
def Pipe.close (pp : Pipe) (writable : Bool) : Pipe :=
  if writable then { pp with writeopen := false } else { pp with readopen := false }

inductive Next (s : Sys N F K P I) (a : Act N K P I) : Sys N F K P I → Prop
  | own {p r} (ha : Acts s a p) (h : Own (s.proc p) r) : Next s a (s.setProc p r)
  | fork {p np} (ha : Acts s a p) (hp : (s.proc p).pc = .run) (hn : (s.proc np).pc = .unused) :
      Next s a ((s.goto np .embryo).goto p (.forkDup np 0))
  | openGet {p o} {ok : Bool} (ha : Acts s a p) (hp : (s.proc p).pc = .run) :
      Next s a ((idup s o.ip).goto p (if ok then .openFile o else .openPut o.ip))
  | alloc {p f pc} (ha : Acts s a p) (h : Alloc (s.proc p).pc f pc) (hf : (s.file f).ref = 0) :
      Next s a ((filealloc s f).goto p pc)
  | openSet {p f fd o} (ha : Acts s a p) (hp : (s.proc p).pc = .openSet f fd o) :
      Next s a ((s.setFile f ((s.file f).open o)).ret p (some fd))
  | openPut {p ip} (ha : Acts s a p) (hp : (s.proc p).pc = .openPut ip) :
      Next s a ((iput s ip).ret p none)
  | dup {p f r} (ha : Acts s a p) (h : Dup (s.proc p) f r) (hf : ¬ (s.file f).ref < 1) :
      Next s a ((s.setFile f { s.file f with ref := (s.file f).ref + 1 }).setProc p r)
  | dupPanic {p f r} (ha : Acts s a p) (h : Dup (s.proc p) f r) (hf : (s.file f).ref < 1) :
      Next s a (s.fail "filedup")
  | drop {p f k} (ha : Acts s a p) (hp : (s.proc p).pc = .close f k) (hf : 1 < (s.file f).ref) :
      Next s a ((s.setFile f { s.file f with ref := (s.file f).ref - 1 }).setProc p
        ((s.proc p).resume k))
  | lastNone {p f k} (ha : Acts s a p) (hp : (s.proc p).pc = .close f k)
      (hf : (s.file f).ref = 1) (ht : (s.file f).type = .none) :
      Next s a ((s.setFile f (s.file f).closed).setProc p ((s.proc p).resume k))
  | lastPipe {p f k pi} (ha : Acts s a p) (hp : (s.proc p).pc = .close f k)
      (hf : (s.file f).ref = 1) (ht : (s.file f).obj = some (.pipe pi (s.file f).writable)) :
      Next s a ((s.setFile f (s.file f).closed).goto p (.pipeclose pi (s.file f).writable k))
  | lastInode {p f k ip} (ha : Acts s a p) (hp : (s.proc p).pc = .close f k)
      (hf : (s.file f).ref = 1) (ht : (s.file f).obj = some (.inode ip)) :
      Next s a ((s.setFile f (s.file f).closed).goto p (.iput ip k))
  | closePanic {p f k} (ha : Acts s a p) (hp : (s.proc p).pc = .close f k)
      (hf : (s.file f).ref < 1) : Next s a (s.fail "fileclose")
  | closeFault {p f k} (ha : Acts s a p) (hp : (s.proc p).pc = .close f k)
      (ht : (s.file f).type ≠ .none) (ho : (s.file f).obj = none) :
      Next s a ((s.setFile f (s.file f).closed).fail "kerneltrap")
  | pipeclose {p pi w k pp} (ha : Acts s a p) (hp : (s.proc p).pc = .pipeclose pi w k)
      (hpi : s.page pi = some pp) (hc : pp.close w ≠ ⟨false, false⟩) :
      Next s a (Sys.setProc { s with page := update s.page pi (some (pp.close w)) } p
        ((s.proc p).resume k))
  | pipeLast {p pi w k pp} (ha : Acts s a p) (hp : (s.proc p).pc = .pipeclose pi w k)
      (hpi : s.page pi = some pp) (hc : pp.close w = ⟨false, false⟩) :
      Next s a (Sys.goto { s with page := update s.page pi (some (pp.close w)) } p (.kfree pi k))
  | pipeFault {p pi w k} (ha : Acts s a p) (hp : (s.proc p).pc = .pipeclose pi w k)
      (hpi : s.page pi = none) : Next s a (s.fail "kerneltrap")
  | kfree {p pi k pp} (ha : Acts s a p) (hp : (s.proc p).pc = .kfree pi k)
      (hpi : s.page pi = some pp) :
      Next s a (Sys.setProc { s with page := update s.page pi none } p ((s.proc p).resume k))
  | kfreePanic {p pi k} (ha : Acts s a p) (hp : (s.proc p).pc = .kfree pi k)
      (hpi : s.page pi = none) : Next s a (s.fail "kfree")
  | iput {p ip k} (ha : Acts s a p) (hp : (s.proc p).pc = .iput ip k) :
      Next s a ((Files.iput s ip).setProc p ((s.proc p).resume k))
  | pipeSetup {p f0 f1 pi} (ha : Acts s a p) (hp : (s.proc p).pc = .pipeMem f0 f1)
      (hpi : s.page pi = none) :
      Next s a ((Files.pipeSetup s f0 f1 pi).goto p (.pipeFd0 f0 f1))
  | forkStore {p np i f} (ha : Acts s a p) (hp : (s.proc p).pc = .forkStore np i f) :
      Next s a ((s.setSlot np i (some f)).goto p (.forkDup np (i + 1)))
  | forkCwd {p np ip} (ha : Acts s a p) (hp : (s.proc p).pc = .forkCwd np)
      (hc : (s.proc p).cwd = some ip) :
      Next s a (((idup s ip).setProc np { s.proc np with cwd := some ip, pc := .run }).ret p
        (some np))
  | exitCwd {p ip} (ha : Acts s a p) (hp : (s.proc p).pc = .exitCwd)
      (hc : (s.proc p).cwd = some ip) :
      Next s a ((Files.iput s ip).setProc p { s.proc p with cwd := none, pc := .zombie })
  | cwdFault {p} (ha : Acts s a p) (hp : (s.proc p).pc.alive = true) (hc : (s.proc p).cwd = none) :
      Next s a (s.fail "kerneltrap")
  | reap {q} (ha : a = .reap q) (hq : (s.proc q).pc = .zombie) : Next s a (s.goto q .unused)

variable {s t : Sys N F K P I} {a : Act N K P I} {p : Fin N} {f : Fin F} {r : Proc N F K P I}
  {fd : Fin K} {k : Kont F K I} {pi : Fin P}

theorem freeFile_some (h : freeFile s = some f) : (s.file f).ref = 0 := by
  simpa using List.find?_some h

theorem freeFd_some (h : freeFd r = some fd) : r.ofile fd = none := by
  simpa using List.find?_some h

theorem argfd_some {n : Nat} (h : argfd r n = some (fd, f)) : r.ofile fd = some f := by
  unfold argfd at h
  split at h
  · obtain ⟨g, hg, he⟩ := Option.map_eq_some_iff.mp h
    obtain ⟨rfl, rfl⟩ := Prod.mk.inj he
    exact hg
  · cases h

theorem setSlot_goto (s : Sys N F K P I) (p : Fin N) (fd : Fin K) (v : Option (Fin F))
    (pc : PC N F K P I) : (s.setSlot p fd v).goto p pc =
      s.setProc p { s.proc p with ofile := update (s.proc p).ofile fd v, pc } := by
  simp [Sys.setSlot, Sys.goto, Sys.setProc]

theorem next_of_call {c : Call N K I} (hp : (s.proc p).pc = .run) (h : call s p c = some t) :
    Next s (.call p c) t := by
  have ha : Acts s (.call p c) p := .inl ⟨c, rfl, hp⟩
  cases c with
  | «open» o ok =>
    cases o with
    | none => cases h; exact .own ha (.fail hp)
    | some o => cases h; exact .openGet ha hp
  | dup fd =>
    simp only [call] at h
    split at h <;> cases h
    · next fd f fd' hf hfd =>
        rw [setSlot_goto]
        exact .own ha (.dup hp (argfd_some hf) (freeFd_some hfd))
    · exact .own ha (.fail hp)
  | close fd =>
    simp only [call] at h
    split at h <;> cases h
    · exact .own ha (.fail hp)
    · next fd f hf =>
        rw [setSlot_goto]
        exact .own ha (.close hp (argfd_some hf))
  | pipe => cases h; exact .own ha (.pipe hp)
  | fork np ok =>
    cases np with
    | none => cases h; exact .own ha (.fail hp)
    | some np =>
      simp only [call] at h
      split at h
      · next hn =>
          split at h <;> cases h
          · exact .fork ha hp hn
          · exact .own ha (.fail hp)
      · cases h
  | exit => cases h; exact .own ha (.exit hp)

theorem next_of_fileclose (ha : Acts s a p)
    (hp : (s.proc p).pc = .close f k) : Next s a (fileclose s p f k) := by
  unfold fileclose
  split_ifs with hf hf'
  · exact .closePanic ha hp hf
  · rw [resume_eq]; exact .drop ha hp (by omega)
  have hone : (s.file f).ref = 1 := by omega
  simp only
  split
  · next ht => rw [resume_eq]; exact .lastNone ha hp hone ht
  · next pi ht hpi => exact .lastPipe ha hp hone (by simp [File.obj, ht, hpi])
  · next ht hpi => exact .closeFault ha hp (by rw [ht]; nofun) (by simp [File.obj, ht, hpi])
  iterate 2
    next ip ht hip => exact .lastInode ha hp hone (by simp [File.obj, ht, hip])
  all_goals
    next ht hip => exact .closeFault ha hp (by rw [ht]; nofun) (by simp [File.obj, ht, hip])

theorem next_of_pipeclose {w : Bool} (ha : Acts s a p)
    (hp : (s.proc p).pc = .pipeclose pi w k) : Next s a (pipeclose s p pi w k) := by
  cases hpi : s.page pi with
  | none => rw [pipeclose, hpi]; exact .pipeFault ha hp hpi
  | some pp =>
    have hclosed : ((pp.close w).readopen = false ∧ (pp.close w).writeopen = false) ↔
        pp.close w = ⟨false, false⟩ := by cases pp.close w; simp
    have heq : pipeclose s p pi w k =
        if (pp.close w).readopen = false ∧ (pp.close w).writeopen = false then
          Sys.goto { s with page := update s.page pi (some (pp.close w)) } p (.kfree pi k)
        else
          Sys.resume { s with page := update s.page pi (some (pp.close w)) } p k := by
      rw [pipeclose, hpi]; rfl
    rw [heq]
    split
    · next hc => exact .pipeLast ha hp hpi (hclosed.mp hc)
    · next hc =>
        rw [resume_eq]
        exact .pipeclose ha hp hpi fun e => hc (hclosed.mpr e)

theorem next_of_kfree (ha : Acts s a p)
    (hp : (s.proc p).pc = .kfree pi k) : Next s a (kfree s p pi k) := by
  unfold kfree
  split
  · next hpi => exact .kfreePanic ha hp hpi
  · next pp hpi => rw [resume_eq]; exact .kfree ha hp hpi

theorem filedup_cases (s : Sys N F K P I) (f : Fin F) :
    (s.file f).ref < 1 ∧ filedup s f = .error "filedup" ∨ ¬ (s.file f).ref < 1 ∧
      filedup s f = .ok (s.setFile f { s.file f with ref := (s.file f).ref + 1 }) := by
  unfold filedup
  split
  · next hf => exact .inl ⟨hf, rfl⟩
  · next hf => exact .inr ⟨hf, rfl⟩

theorem next_of_run {mem : Option (Fin P)} {ok : Bool} (h : run s p mem ok = some t) :
    Next s (.run p mem ok) t := by
  unfold run at h
  split at h
  case h_1 | h_2 | h_3 | h_4 => cases h
  all_goals
    rename_i hp
    have ha : Acts s (.run p mem ok) p := .inr ⟨mem, ok, rfl, by rw [hp]; nofun⟩
  case h_5 o =>
    split at h <;> cases h
    · next f hf => exact .alloc ha (hp ▸ .open o) (freeFile_some hf)
    · exact .own ha (.openNoFile hp)
  case h_6 f o =>
    split at h <;> cases h
    · next fd hfd => rw [setSlot_goto]; exact .own ha (.openFd hp (freeFd_some hfd))
    · exact .own ha (.openNoFd hp)
  case h_7 f fd o => cases h; exact .openSet ha hp
  case h_8 ip => cases h; exact .openPut ha hp
  case h_9 f fd =>
    rcases filedup_cases s f with ⟨hf, he⟩ | ⟨hf, he⟩ <;> rw [he] at h <;> cases h
    · exact .dupPanic ha (.dup hp) hf
    · exact .dup ha (.dup hp) hf
  case h_10 f k => cases h; exact next_of_fileclose ha hp
  case h_11 pi w k => cases h; exact next_of_pipeclose ha hp
  case h_12 pi k => cases h; exact next_of_kfree ha hp
  case h_13 ip k => cases h; rw [resume_eq]; exact .iput ha hp
  case h_14 =>
    split at h <;> cases h
    · next f hf => exact .alloc ha (hp ▸ .pipe0) (freeFile_some hf)
    · exact .own ha (.pipeNoF0 hp)
  case h_15 f0 =>
    split at h <;> cases h
    · next f hf => exact .alloc ha (hp ▸ .pipe1 f0) (freeFile_some hf)
    · exact .own ha (.pipeNoF1 hp)
  case h_16 f0 f1 =>
    split at h
    · cases h; exact .own ha (.pipeNoMem hp)
    · split_ifs at h with hpi
      cases h; exact .pipeSetup ha hp hpi
  case h_17 f0 f1 =>
    split at h <;> cases h
    · next fd hfd => rw [setSlot_goto]; exact .own ha (.pipeFd0 hp (freeFd_some hfd))
    · exact .own ha (.pipeNoFd0 hp)
  case h_18 f0 f1 fd0 =>
    split at h <;> cases h <;> rw [setSlot_goto]
    · next fd hfd => exact .own ha (.pipeFd1 hp (freeFd_some hfd))
    · exact .own ha (.pipeNoFd1 hp)
  case h_19 f0 f1 fd0 fd1 =>
    split at h <;> cases h
    · exact .own ha (.pipeOk hp)
    · rw [setSlot_goto]
      simpa [Sys.setSlot, Sys.setProc] using Next.own ha (Own.pipeBad hp)
  case h_20 np i =>
    split_ifs at h with hi
    · split at h
      · cases h; exact .own ha (.forkSkip hp)
      · next f hf =>
        have hd := Dup.fork hp hf
        rcases filedup_cases s f with ⟨hr, he⟩ | ⟨hr, he⟩ <;> rw [he] at h <;> cases h
        · exact .dupPanic ha hd hr
        · exact .dup ha hd hr
    · cases h; exact .own ha (.forkLast hp)
  case h_21 np i f => cases h; exact .forkStore ha hp
  case h_22 np =>
    split at h <;> cases h
    · next hc => exact .cwdFault ha (by rw [hp]; rfl) hc
    · next ip hc => exact .forkCwd ha hp hc
  case h_23 i =>
    split_ifs at h with hi
    · split at h <;> cases h
      · next hf => exact .own ha (.exitSkip hp hf)
      · next f hf => exact .own ha (.exitClose hp hf)
    · cases h; exact .own ha (.exitLast hp hi)
  case h_24 fd => cases h; rw [setSlot_goto]; exact .own ha (.clear hp)
  case h_25 =>
    split at h <;> cases h
    · next hc => exact .cwdFault ha (by rw [hp]; rfl) hc
    · next ip hc => exact .exitCwd ha hp hc

theorem next_of_step (h : step s a = some t) : s.panic = none ∧ Next s a t := by
  unfold step at h
  split_ifs at h with hpanic
  refine ⟨not_not.mp hpanic, ?_⟩
  cases a with
  | call p c =>
    simp only at h
    split_ifs at h with hp
    exact next_of_call hp h
  | run p mem ok => exact next_of_run h
  | reap q =>
    simp only at h
    split_ifs at h with hq
    cases h; exact .reap rfl hq

/-! ## Two processes written in one step of `fork` -/

section
variable {s : Sys N F K P I} {p np : Fin N}

theorem proc_embryo (hpn : p ≠ np) : ((s.goto np .embryo).goto p (.forkDup np 0)).proc =
    update (update s.proc np { s.proc np with pc := .embryo }) p
      { s.proc p with pc := .forkDup np 0 } := by
  simp [Sys.goto, Sys.setProc, hpn]

theorem proc_forkDup (hpn : p ≠ np) (i : Fin K) (f : Fin F) :
    ((s.setSlot np i (some f)).goto p (.forkDup np (i + 1))).proc =
      update (update s.proc np
        { s.proc np with ofile := update (s.proc np).ofile i (some f) }) p
        { s.proc p with pc := .forkDup np (i + 1) } := by
  simp [Sys.goto, Sys.setSlot, Sys.setProc, hpn]

theorem proc_forkCwd (hpn : p ≠ np) (ip : Fin I) :
    (((idup s ip).setProc np { s.proc np with cwd := some ip, pc := .run }).ret p (some np)).proc =
      update (update s.proc np { s.proc np with cwd := some ip, pc := .run }) p
        { s.proc p with pc := .run, ret := some np } := by
  simp [Sys.ret, Sys.setProc, idup, hpn]

end

end Xv6.Files
