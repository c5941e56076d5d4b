/-
# `Xv6.Files.Objects` — what open files refer to

A reference to an inode and an open side of a pipe are held by one holder: a file
structure, a process that has it in its variables, or, for an inode, as a current
directory.

  * `count` is what the object itself says of its references: `ip->ref`, or
    whether the side is open;
  * `Proc.objs` is what a process holds, `files` what the file table holds.
-/
import Xv6.Files.Inv

namespace Xv6.Files

open Machine Function List

variable {N F K P I : Nat} {s t u : Sys N F K P I} {a : Act N K P I} {p q : Fin N}
  {r r' : Proc N F K P I} {o : Obj P I}

/-! ## Holders -/

def Proc.objs (r : Proc N F K P I) : List (Obj P I) := r.pc.objs ++ (r.cwd.map .inode).toList

/-- What the file table holds of `o`. -/
def files (s : Sys N F K P I) (o : Obj P I) : Nat := ∑ f, (s.file f).obj.toList.count o

def Pipe.side (pp : Pipe) (writable : Bool) : Bool := if writable then pp.writeopen else pp.readopen

/-- The references `o` counts. -/
def Sys.count (s : Sys N F K P I) : Obj P I → Nat
  | .pipe pi w => ((s.page pi).any (·.side w)).toNat
  | .inode ip => s.iref ip

/-- Both sides of the pipe are closed, its page not yet free. -/
def Sys.gone (s : Sys N F K P I) (pi : Fin P) : Nat :=
  if s.page pi = some ⟨false, false⟩ then 1 else 0

def Proc.frees (r : Proc N F K P I) (pi : Fin P) : Nat := r.pc.freeing.toList.count pi

structure Objects (s : Sys N F K P I) : Prop where
  held : ∀ o, s.count o = files s o + total (·.objs.count o) s
  gone : ∀ pi, s.gone pi = total (·.frees pi) s

variable {f f0 f1 : Fin F} {k : Kont F K I} {pi : Fin P} {w : Bool} {v : File P I}

/-- The file structure `f` is overwritten. -/
theorem files_set (h : t.file = update s.file f v) (o : Obj P I) :
    files t o + (s.file f).obj.toList.count o = files s o + v.obj.toList.count o := by
  rw [files, h]
  exact sum_update_add (fun w : File P I => w.obj.toList.count o) s.file f v

theorem files_same (h : t.file = update s.file f v)
    (hv : v.obj = (s.file f).obj) (o : Obj P I) : files t o = files s o := by
  have := files_set h o
  rw [hv] at this
  omega

theorem count_congr (hpage : t.page = s.page) (hi : t.iref = s.iref) (o : Obj P I) :
    t.count o = s.count o := by
  cases o with
  | pipe pi w => simp only [Sys.count, hpage]
  | inode ip => simp only [Sys.count, hi]

theorem gone_congr (hpage : t.page = s.page) (pi : Fin P) : t.gone pi = s.gone pi := by
  simp only [Sys.gone, hpage]

theorem count_idup (s : Sys N F K P I) (ip : Fin I) (o : Obj P I) :
    (idup s ip).count o = s.count o + [Obj.inode ip].count o := by
  cases o with
  | pipe pi w => simp [Sys.count, idup]
  | inode ip' =>
    by_cases h : ip = ip'
    · subst h; simp [Sys.count, idup]
    · simp [Sys.count, idup, h, Ne.symm h]

theorem count_iput (ip : Fin I) (h : 1 ≤ s.iref ip) (o : Obj P I) :
    (iput s ip).count o + [Obj.inode ip].count o = s.count o := by
  cases o with
  | pipe pi w => simp [Sys.count, iput]
  | inode ip' =>
    by_cases h' : ip = ip'
    · subst h'
      simp only [Sys.count, iput, update_self, count_singleton_self]
      omega
    · simp [Sys.count, iput, h', Ne.symm h']

section
variable {pi : Fin P} {pp : Pipe} {w : Bool}

theorem side_close (pp : Pipe) (w v : Bool) :
    (pp.close w).side v = if v = w then false else pp.side v := by
  cases w <;> cases v <;> rfl

/-- A side that was open is closed. -/
theorem count_close (hpage : t.page = update s.page pi (some (pp.close w)))
    (hi : t.iref = s.iref) (hpi : s.page pi = some pp) (hw : pp.side w = true) (o : Obj P I) :
    t.count o + [Obj.pipe pi w].count o = s.count o := by
  cases o with
  | inode ip => simp [Sys.count, hi]
  | pipe pi' v =>
    by_cases hp : pi' = pi
    · subst hp
      simp only [Sys.count, hpage, hpi, update_self, Option.any_some, side_close]
      by_cases hv : v = w
      · subst hv; simp [hw]
      · simp [hv, Ne.symm hv]
    · simp [Sys.count, hpage, update_of_ne hp, Ne.symm hp]

/-- A page becomes a pipe. -/
theorem count_open (hpage : t.page = update s.page pi (some ⟨true, true⟩))
    (hi : t.iref = s.iref) (hpi : s.page pi = none) (o : Obj P I) :
    t.count o = s.count o + [Obj.pipe pi false, Obj.pipe pi true].count o := by
  cases o with
  | inode ip => simp [Sys.count, hi]
  | pipe pi' v =>
    by_cases hp : pi' = pi
    · subst hp
      cases v <;> simp [Sys.count, hpage, hpi, Pipe.side]
    · simp [Sys.count, hpage, update_of_ne hp, Ne.symm hp]

/-- A page that is no pipe any more is freed. -/
theorem count_free (hpage : t.page = update s.page pi none) (hi : t.iref = s.iref)
    (hpi : s.page pi = some ⟨false, false⟩) (o : Obj P I) : t.count o = s.count o := by
  cases o with
  | inode ip => simp [Sys.count, hi]
  | pipe pi' v =>
    by_cases hp : pi' = pi
    · subst hp
      cases v <;> simp [Sys.count, hpage, hpi, Pipe.side]
    · simp [Sys.count, hpage, update_of_ne hp]

/-- The page is put in another state. -/
theorem gone_set (pi : Fin P) {v : Option Pipe} (hpage : t.page = update s.page pi v) (pi' : Fin P) :
    t.gone pi' = if pi' = pi then (if v = some ⟨false, false⟩ then 1 else 0) else s.gone pi' := by
  by_cases h : pi' = pi
  · subst h; simp only [Sys.gone, hpage, update_self, if_true]
  · simp only [Sys.gone, hpage, update_of_ne h, h, if_false]

end

/-! ## One process moves, or two -/

theorem Objects.one (h : Objects s) (ht : t.proc = update s.proc p r)
    (hheld : ∀ o, t.count o + files s o + (s.proc p).objs.count o =
      s.count o + files t o + r.objs.count o)
    (hgone : ∀ pi, t.gone pi + (s.proc p).frees pi = s.gone pi + r.frees pi) : Objects t := by
  refine ⟨fun o => ?_, fun pi => ?_⟩
  · have h1 := h.held o
    have h2 := total_update (·.objs.count o) ht
    have h3 := hheld o
    omega
  · have h1 := h.gone pi
    have h2 := total_update (·.frees pi) ht
    have h3 := hgone pi
    omega

/-- A process goes from `pc` to `pc'`, its current directory stays. -/
theorem Objects.pass (h : Objects s) {pc pc' : PC N F K P I} (hp : (s.proc p).pc = pc)
    (ht : t.proc = update s.proc p r) (hpc : r.pc = pc') (hc : r.cwd = (s.proc p).cwd)
    (hheld : ∀ o, t.count o + files s o + pc.objs.count o = s.count o + files t o + pc'.objs.count o)
    (hgone : ∀ pi, t.gone pi + pc.freeing.toList.count pi =
      s.gone pi + pc'.freeing.toList.count pi) : Objects t := by
  refine h.one ht (fun o => ?_) fun pi => ?_
  · have := hheld o
    simp only [Proc.objs, hp, hpc, hc, count_append]
    omega
  · simpa only [Proc.frees, hp, hpc] using hgone pi

/-- Nothing but a process moves, and holds what it held. -/
theorem Objects.move (h : Objects s) (ht : t.proc = update s.proc p r)
    (hf : ∀ o, files t o = files s o) (hpage : t.page = s.page) (hi : t.iref = s.iref)
    (ho : r.pc.objs = (s.proc p).pc.objs) (hc : r.cwd = (s.proc p).cwd)
    (hfr : r.pc.freeing = (s.proc p).pc.freeing) : Objects t := by
  refine h.pass rfl ht rfl hc (fun o => ?_) fun pi => ?_
  · rw [count_congr hpage hi, hf, ho]
  · rw [gone_congr hpage, hfr]

theorem Objects.two (h : Objects s) {np : Fin N} (hpn : p ≠ np)
    (ht : t.proc = update (update s.proc np r') p r) (hf : t.file = s.file)
    (hpage : t.page = s.page)
    (hheld : ∀ o, t.count o + (s.proc p).objs.count o + (s.proc np).objs.count o =
      s.count o + r.objs.count o + r'.objs.count o)
    (hfr : r.pc.freeing = (s.proc p).pc.freeing) (hfr' : r'.pc.freeing = (s.proc np).pc.freeing) :
    Objects t := by
  refine ⟨fun o => ?_, fun pi => ?_⟩
  · have h1 := total_update₂ (·.objs.count o) hpn ht
    have h2 := hheld o
    have h3 := h.held o
    have h4 : files t o = files s o := by simp only [files, hf]
    omega
  · have h1 := total_update₂ (·.frees pi) hpn ht
    have h2 := h.gone pi
    have h3 : r.frees pi = (s.proc p).frees pi := by rw [Proc.frees, Proc.frees, hfr]
    have h4 : r'.frees pi = (s.proc np).frees pi := by rw [Proc.frees, Proc.frees, hfr']
    rw [gone_congr hpage]
    omega

/-! ## Steps -/

theorem Alloc.objs {pc pc' : PC N F K P I} (h : Alloc pc f pc') :
    pc'.objs = pc.objs ∧ pc'.freeing = pc.freeing := by
  cases h <;> exact ⟨rfl, rfl⟩

theorem Dup.objs (h : Dup r f r') :
    r'.pc.objs = r.pc.objs ∧ r'.cwd = r.cwd ∧ r'.pc.freeing = r.pc.freeing := by
  cases h with
  | dup h | fork h _ => rw [h]; exact ⟨rfl, rfl, rfl⟩

/-- What a process holds is counted. -/
theorem Objects.counted (h : Objects s) (ho : o ∈ (s.proc p).objs) : 1 ≤ s.count o := by
  have h1 := le_total (·.objs.count o) s p
  have h2 : 1 ≤ (s.proc p).objs.count o := count_pos_iff.mpr ho
  have h3 := h.held o
  omega

theorem side_of_count
    (hc : 1 ≤ s.count (.pipe pi w)) : ∃ pp, s.page pi = some pp ∧ pp.side w = true := by
  cases hpi : s.page pi with
  | none => simp [Sys.count, hpi] at hc
  | some pp =>
    cases hs : pp.side w with
    | false => simp [Sys.count, hpi, hs] at hc
    | true => exact ⟨pp, rfl, hs⟩

/-- Who is about to close a side finds it open. -/
theorem Objects.side (h : Objects s)
    (hp : (s.proc p).pc = .pipeclose pi w k) : ∃ pp, s.page pi = some pp ∧ pp.side w = true :=
  side_of_count (h.counted (by rw [Proc.objs, hp]; simp [PC.objs]))

/-- Who is about to free a page finds both sides closed. -/
theorem Objects.closed (h : Objects s) (hp : (s.proc p).pc = .kfree pi k) :
    s.page pi = some ⟨false, false⟩ := by
  have h1 := le_total (·.frees pi) s p
  have h2 : (s.proc p).frees pi = 1 := by simp [Proc.frees, hp, PC.freeing]
  have h3 := h.gone pi
  simp only [Sys.gone] at h3
  split at h3
  · assumption
  · omega

/-- A reference to an inode that a process holds is put. -/
theorem Objects.put (h : Objects s) {ip : Fin I} (ho : .inode ip ∈ (s.proc p).objs)
    (ht : t.proc = update s.proc p r) (hf : t.file = s.file) (hpage : t.page = s.page)
    (hi : t.iref = (iput s ip).iref)
    (hobjs : ∀ x, (s.proc p).objs.count x = [Obj.inode ip].count x + r.objs.count x)
    (hfr : r.pc.freeing = (s.proc p).pc.freeing) : Objects t := by
  refine h.one ht (fun x => ?_) fun pi => ?_
  · have h1 := count_iput ip (h.counted ho : 1 ≤ s.iref ip) x
    have h2 : t.count x = (iput s ip).count x := count_congr (s := iput s ip) hpage hi x
    have h3 : files t x = files s x := by simp only [files, hf]
    have h4 := hobjs x
    omega
  · rw [gone_congr hpage, Proc.frees, Proc.frees, hfr]

theorem closed_obj (f : File P I) : f.closed.obj = none := rfl

theorem fresh_obj {f : File P I} (h : f.type = .none) : f.obj = none := by simp [File.obj, h]

theorem count_cons (o x : Obj P I) (l : List (Obj P I)) :
    (o :: l).count x = [o].count x + l.count x := by
  rw [← singleton_append, count_append]

/-- The last reference to a file is dropped: what it held goes to the process. -/
theorem Objects.last (h : Objects s) {pc : PC N F K P I} (hp : (s.proc p).pc = .close f k)
    (ho : (s.file f).obj = some o) (hobjs : pc.objs = o :: k.objs) (hfr : pc.freeing = none) :
    Objects ((s.setFile f (s.file f).closed).goto p pc) := by
  refine h.pass hp rfl rfl rfl (fun x => ?_) fun pi => by rw [gone_congr rfl, hfr]; rfl
  have hfiles := files_set (t := (s.setFile f (s.file f).closed).goto p pc) rfl x
  rw [ho, closed_obj] at hfiles
  simp only [Option.toList, count_nil] at hfiles
  rw [hobjs, count_cons]
  show s.count x + files s x + k.objs.count x = s.count x + _ + _
  omega

/-- A pipe end in a variable is let go, and the side is closed. -/
theorem Objects.shut (h : Objects s) {pp : Pipe}
    (hp : (s.proc p).pc = .pipeclose pi w k) (hpi : s.page pi = some pp) (hfile : t.file = s.file)
    (hpage : t.page = update s.page pi (some (pp.close w))) (hi : t.iref = s.iref)
    (ht : t.proc = update s.proc p r) (hc : r.cwd = (s.proc p).cwd) (hobjs : r.pc.objs = k.objs)
    (hfr : r.pc.freeing = if pp.close w = ⟨false, false⟩ then some pi else none) : Objects t := by
  obtain ⟨pp', hpi', hw⟩ := h.side hp
  obtain rfl : pp = pp' := by rw [hpi] at hpi'; exact Option.some.inj hpi'
  refine h.pass hp ht rfl hc (fun x => ?_) fun pi' => ?_
  · have hcount := count_close hpage hi hpi hw x
    have hfiles : files t x = files s x := by simp only [files, hfile]
    rw [hobjs]
    show _ + _ + (Obj.pipe pi w :: k.objs).count x = _
    rw [count_cons]
    omega
  · -- before, the side was open
    have hne : pp ≠ ⟨false, false⟩ := by rintro rfl; cases w <;> cases hw
    rw [gone_set pi hpage, hfr]
    by_cases hp' : pi' = pi
    · subst hp'
      simp only [Sys.gone, hpi, if_true, Option.some.injEq, hne, if_false]
      by_cases hc : pp.close w = ⟨false, false⟩ <;> simp [hc, PC.freeing]
    · by_cases hc : pp.close w = ⟨false, false⟩ <;> simp [hc, hp', PC.freeing, Ne.symm hp']

/-- The two files of a new pipe are two. -/
theorem Books.ne_of_pipeMem (hB : Books s) (hp : (s.proc p).pc = .pipeMem f0 f1) : f0 ≠ f1 := by
  rintro rfl
  have h1 := hB.count f0
  have h2 := le_total (share · f0) s p
  have h3 : 2 ≤ share (s.proc p) f0 := by simp [share, hp, PC.refs]
  have h4 := (hB.fresh p f0 (by rw [hp]; simp [PC.fresh])).1
  omega

/-- The two ends are set up. -/
theorem files_pipeSetup (hne : f0 ≠ f1) (h0 : (s.file f0).type = .none)
    (h1 : (s.file f1).type = .none) (pi : Fin P) (x : Obj P I) :
    files (pipeSetup s f0 f1 pi) x = files s x + [Obj.pipe pi false, Obj.pipe pi true].count x := by
  have e0 := files_set (t := s.setFile f0 { s.file f0 with
    type := .pipe, readable := true, writable := false, pipe := some pi }) rfl x
  have e1 := files_set (s := s.setFile f0 { s.file f0 with
    type := .pipe, readable := true, writable := false, pipe := some pi })
    (t := pipeSetup s f0 f1 pi) rfl x
  have hf1 : (s.setFile f0 { s.file f0 with
    type := .pipe, readable := true, writable := false, pipe := some pi }).file f1 = s.file f1 :=
    update_of_ne hne.symm ..
  rw [hf1, fresh_obj h1] at e1
  rw [fresh_obj h0] at e0
  simp only [File.obj, Option.map_some, Option.toList, count_nil] at e0 e1
  rw [count_cons]
  omega

theorem Objects.step (h : Objects s) (hF : Family s) (hB : Books s) (hn : Next s a t) :
    Objects t := by
  cases hn with
  | own _ ho =>
    exact h.move rfl (fun _ => rfl) rfl rfl ho.objs ho.cwd (ho.freeing.1.trans ho.freeing.2.symm)
  | @fork p np _ hp hn =>
    have hpn : p ≠ np := by rintro rfl; rw [hp] at hn; cases hn
    refine h.two hpn (proc_embryo hpn) rfl rfl (fun o => ?_) (by rw [hp]; rfl) (by rw [hn]; rfl)
    rw [count_congr rfl rfl, Proc.objs, Proc.objs, hp, hn]; rfl
  | @openGet p o ok _ hp =>
    have hr : PC.objs (if ok then .openFile o else .openPut o.ip : PC N F K P I) =
      [.inode o.ip] := by split <;> rfl
    have hr' : PC.freeing (if ok then .openFile o else .openPut o.ip : PC N F K P I) = none := by
      split <;> rfl
    refine h.pass hp rfl rfl rfl (fun x => ?_) fun pi => ?_
    · have := count_idup s o.ip x
      show (idup s o.ip).count x + files s x + 0 = s.count x + files s x + _
      rw [hr]
      omega
    · rw [hr', gone_congr rfl]; rfl
  | @alloc p f pc _ hal hf =>
    exact h.move rfl (files_same rfl rfl) rfl rfl hal.objs.1 rfl hal.objs.2
  | @openSet p f fd o _ hp =>
    -- the reference goes from the call to the file
    obtain ⟨-, htype⟩ := hB.fresh p f (by rw [hp]; simp [PC.fresh])
    have hobj : ((s.file f).open o).obj = some (.inode o.ip) := by
      cases hd : o.device <;> simp [File.obj, File.open, hd]
    refine h.pass hp rfl rfl rfl (fun x => ?_) fun pi => by rw [gone_congr rfl]; rfl
    have := files_set (t := (s.setFile f ((s.file f).open o)).ret p (some fd)) rfl x
    rw [fresh_obj htype, hobj] at this
    show s.count x + _ + [Obj.inode o.ip].count x = s.count x + _ + 0
    simp only [Option.toList, count_nil] at this
    omega
  | openPut _ hp =>
    refine h.put (by rw [Proc.objs, hp]; simp [PC.objs]) rfl rfl rfl rfl (fun x => ?_) (by rw [hp]; rfl)
    rw [Proc.objs, hp]; exact count_cons ..
  | @dup p f r _ hd hf =>
    exact h.move rfl (files_same rfl rfl) rfl rfl hd.objs.1 hd.objs.2.1 hd.objs.2.2
  | drop _ hp hf =>
    exact h.move rfl (files_same rfl rfl) rfl rfl (by rw [hp]; exact Kont.pc_objs _) rfl
      (by rw [hp]; exact (Kont.pc_plain _).2.2.1)
  | lastNone _ hp hf htype =>
    exact h.move rfl (files_same rfl (fresh_obj htype).symm) rfl rfl
      (by rw [hp]; exact Kont.pc_objs _) rfl (by rw [hp]; exact (Kont.pc_plain _).2.2.1)
  | lastPipe _ hp _ ho | lastInode _ hp _ ho => exact h.last hp ho rfl rfl
  | closeFault _ _ ht ho => exact absurd ho (hB.typed _ ht)
  | pipeclose _ hp hpi hc =>
    exact h.shut hp hpi rfl rfl rfl rfl rfl (Kont.pc_objs _)
      (by rw [if_neg hc]; exact (Kont.pc_plain _).2.2.1)
  | pipeLast _ hp hpi hc =>
    exact h.shut hp hpi rfl rfl rfl rfl rfl rfl (by rw [if_pos hc]; rfl)
  | @kfree p pi k pp _ hp hpi =>
    have hcl := h.closed hp
    refine h.pass hp rfl rfl rfl (fun x => ?_) fun pi' => ?_
    · have hcount : Sys.count { s with page := update s.page pi none } x = s.count x :=
        count_free (t := { s with page := update s.page pi none }) rfl rfl hcl x
      show Sys.count { s with page := update s.page pi none } x + files s x +
        k.objs.count x = s.count x + files s x + (k.pc : PC N F K P I).objs.count x
      rw [hcount, k.pc_objs]
    · show _ + [pi].count pi' = _ + (k.pc : PC N F K P I).freeing.toList.count pi'
      rw [gone_set pi rfl, k.pc_plain.2.2.1]
      by_cases hp' : pi' = pi
      · subst hp'; simp [Sys.gone, hcl]
      · simp [hp', Ne.symm hp']
  | @iput p ip k _ hp =>
    refine h.put (by rw [Proc.objs, hp]; simp [PC.objs]) rfl rfl rfl rfl (fun x => ?_)
      (by rw [hp]; exact k.pc_plain.2.2.1)
    show _ = _ + ((k.pc : PC N F K P I).objs ++ _).count x
    rw [k.pc_objs, Proc.objs, hp]; exact count_cons ..
  | @pipeSetup p f0 f1 pi _ hp hpi =>
    obtain ⟨-, h0⟩ := hB.fresh p f0 (by rw [hp]; simp [PC.fresh])
    obtain ⟨-, h1⟩ := hB.fresh p f1 (by rw [hp]; simp [PC.fresh])
    refine h.pass hp rfl rfl rfl (fun x => ?_) fun pi' => ?_
    · have e1 := files_pipeSetup (hB.ne_of_pipeMem hp) h0 h1 pi x
      have e2 := count_open (t := Files.pipeSetup s f0 f1 pi) rfl rfl hpi x
      show (Files.pipeSetup s f0 f1 pi).count x + files s x + 0 =
        s.count x + files (Files.pipeSetup s f0 f1 pi) x + 0
      omega
    · rw [gone_set pi rfl]
      by_cases hp' : pi' = pi
      · subst hp'; simp [Sys.gone, hpi, PC.freeing]
      · simp [hp', PC.freeing]
  | @forkStore p np i f _ hp =>
    have hpn : p ≠ np := hF.ne_child (by rw [hp]; rfl)
    refine h.two hpn (proc_forkDup hpn _ _) rfl rfl (fun o => ?_) (by rw [hp]; rfl) rfl
    rw [Proc.objs, hp]; rfl
  | @forkCwd p np ip _ hp _ =>
    have hc : (s.proc p).pc.child = some np := by rw [hp]; rfl
    have hpn := hF.ne_child hc
    have hnp := hF.child p np hc
    have hcwd : (s.proc np).cwd = none := by
      have := (hF.locals np).cwd
      rw [hnp] at this
      simpa [PC.alive] using this
    refine h.two hpn (proc_forkCwd hpn _) rfl rfl (fun o => ?_) (by rw [hp]; rfl) (by rw [hnp]; rfl)
    have hcount := count_idup s ip o
    simp only [Proc.objs, hp, hnp, hcwd]
    show (idup s ip).count o + ((s.proc p).cwd.map Obj.inode).toList.count o + 0 =
      s.count o + ((s.proc p).cwd.map Obj.inode).toList.count o + [Obj.inode ip].count o
    omega
  | exitCwd _ hp hc =>
    exact h.put (by rw [Proc.objs, hc]; simp) rfl rfl rfl rfl (fun x => by rw [Proc.objs, hp, hc]; rfl)
      (by rw [hp]; rfl)
  | reap _ hq => exact h.move rfl (fun _ => rfl) rfl rfl (by rw [hq]; rfl) rfl (by rw [hq]; rfl)
  | _ => exact ⟨h.held, h.gone⟩

/-! ## Reachable states -/

structure Inv (s : Sys N F K P I) : Prop where
  family : Family s
  books : Books s
  objects : Objects s
  panic : s.panic = none

/-- Who has a file finds it counted. -/
theorem Books.counted (h : Books s) (hf : 1 ≤ share (s.proc p) f) : 1 ≤ (s.file f).ref := by
  have := le_total (share · f) s p
  rw [h.count f]
  omega

theorem Inv.panic_step (h : Inv s) (hn : Next s a t) : t.panic = none := by
  cases hn with
  | @dupPanic p f r _ hd hf =>
    have := h.books.counted (hd.share (h.family.locals p).table).2.1
    omega
  | @closePanic p f k _ hp hf =>
    have := h.books.counted (share_of_close (h.family.locals p).table hp)
    omega
  | closeFault _ _ ht ho => exact absurd ho (h.books.typed _ ht)
  | pipeFault _ hp hpi =>
    obtain ⟨pp, hpp, -⟩ := h.objects.side hp
    rw [hpi] at hpp; cases hpp
  | kfreePanic _ hp hpi =>
    have := h.objects.closed hp
    rw [hpi] at this; cases this
  | @cwdFault p _ hp hc =>
    have := (h.family.locals p).cwd
    rw [hc, hp] at this; cases this
  | _ => exact h.panic

theorem Inv.next (h : Inv s) (hn : Next s a t) : Inv t :=
  ⟨h.family.step hn, h.books.step h.family hn, h.objects.step h.family h.books hn, h.panic_step hn⟩

theorem Init.pc (h : Init s) (p : Fin N) : (s.proc p).pc = .run ∨ (s.proc p).pc = .unused := by
  obtain ⟨p0, root, hp0, -, hother, -⟩ := h.procs
  by_cases hp : p = p0
  · exact .inl (hp ▸ hp0)
  · exact .inr (hother p hp).1

theorem Init.family (h : Init s) : Family s := by
  have hchild : ∀ p, (s.proc p).pc.child = none := fun p => by
    rcases h.pc p with e | e <;> rw [e] <;> rfl
  refine ⟨fun p => ⟨?_, ?_⟩, fun p np hc => ?_, fun p q np hc => ?_, fun p np i hr => ?_⟩
  · rcases h.pc p with e | e <;> rw [TableOk, e]
    · trivial
    · exact h.ofile p
  · obtain ⟨p0, root, hp0, hroot, hother, -⟩ := h.procs
    by_cases hp : p = p0
    · rw [hp, hp0, hroot]; rfl
    · rw [(hother p hp).1, (hother p hp).2]; rfl
  · rw [hchild] at hc; cases hc
  · rw [hchild] at hc; cases hc
  · have := PC.child_of_rest hr; rw [hchild] at this; cases this

theorem Init.books (h : Init s) : Books s := by
  refine ⟨fun f => ?_, fun f _ => (h.file f).2, fun f hne => absurd (h.file f).2 hne, fun p f hf => ?_⟩
  · rw [(h.file f).1]
    refine (Finset.sum_eq_zero fun p _ => ?_).symm
    have hrefs : (s.proc p).pc.refs = [] := by rcases h.pc p with e | e <;> rw [e] <;> rfl
    simp [share, slots, slot, h.ofile, hrefs]
  · rcases h.pc p with e | e <;> rw [e] at hf <;> cases hf

theorem Init.objects (h : Init s) : Objects s := by
  have hobjs : ∀ p, (s.proc p).pc.objs = [] := fun p => by rcases h.pc p with e | e <;> rw [e] <;> rfl
  have hfiles : ∀ o, files s o = 0 := fun o => by simp [files, fresh_obj (h.file _).2]
  refine ⟨fun o => ?_, fun pi => ?_⟩
  · obtain ⟨p0, root, hp0, hroot, hother, hi⟩ := h.procs
    have htotal : total (·.objs.count o) s = [Obj.inode root].count o := by
      refine (Finset.sum_eq_single p0 (fun p _ hp => ?_) (by simp)).trans ?_
      · simp [Proc.objs, hobjs, (hother p hp).2]
      · simp [Proc.objs, hobjs, hroot]
    rw [hfiles, htotal]
    cases o with
    | pipe pi w => simp [Sys.count, h.page]
    | inode ip => by_cases e : ip = root <;> simp [Sys.count, hi, e, Ne.symm]
  · have hfr : ∀ p, (s.proc p).frees pi = 0 := fun p => by
      rcases h.pc p with e | e <;> simp [Proc.frees, e, PC.freeing]
    simp [Sys.gone, h.page, total, hfr]

theorem Init.inv (h : Init s) : Inv s := ⟨h.family, h.books, h.objects, h.panic⟩

theorem inv_run {H : List (Sys N F K P I × Act N K P I)} (h : Run Init step H s) : Inv s :=
  h.inv (fun _ hi => hi.inv) fun _ _ _ hs hst => hs.next (next_of_step hst).2

end Xv6.Files
