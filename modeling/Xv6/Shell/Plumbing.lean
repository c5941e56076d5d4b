/-
# `Xv6.Shell.Plumbing` — what the commands of a line are connected to

Since a process has its descriptor table to itself, its calls can be followed without
the others: `Safe root code t made` says that `code`, run with the table `t`, and
everything it forks, calls `exec` and `wait` only as it should.  `runcmd` is safe on
every tree, by induction on the tree; that every process of the machine runs safe code
is then an invariant of each step.

**Proved here.**

  * the bindings at every `exec`, and the closed pipes at every `wait`
    (`shell_plumbing`)
-/
import Xv6.Shell.Runcmd

namespace Xv6.Shell

open Machine List

/-! ## Bindings -/

/-- The redirections and pipe sides on the path `p` from the node `node`, outermost
first: a descriptor and what it is bound to. -/
def enclosing : Path → Cmd Str → Path → List (Nat × File)
  | node, .redir cmd _ r, .sub :: p => (r.fd, .opened node) :: enclosing (node ++ [.sub]) cmd p
  | node, .pipe left _, .left :: p => (1, .pipe node true) :: enclosing (node ++ [.left]) left p
  | node, .pipe _ right, .right :: p =>
    (0, .pipe node false) :: enclosing (node ++ [.right]) right p
  | node, .list left _, .left :: p => enclosing (node ++ [.left]) left p
  | node, .list _ right, .right :: p => enclosing (node ++ [.right]) right p
  | node, .back cmd, .sub :: p => enclosing (node ++ [.sub]) cmd p
  | _, _, _ => []

/-- The innermost binding of `fd`. -/
def innermost (fd : Nat) (bs : List (Nat × File)) : File :=
  ((bs.filter (·.1 = fd)).getLast?.map Prod.snd).getD (.inherited fd)

/-- What the node at the end of `p` should find at descriptor `fd`. -/
def target (root : Cmd Str) (p : Path) (fd : Nat) : File := innermost fd (enclosing [] root p)

theorem innermost_append_self (bs : List (Nat × File)) (fd : Nat) (f : File) :
    innermost fd (bs ++ [(fd, f)]) = f := by
  simp [innermost]

theorem innermost_append_of_ne (bs : List (Nat × File)) {fd fd' : Nat} (f : File) (h : fd' ≠ fd) :
    innermost fd (bs ++ [(fd', f)]) = innermost fd bs := by
  simp [innermost, h]

/-- The bindings of one branch. -/
def branchBinds (node : Path) : Cmd Str → Branch → List (Nat × File)
  | .redir _ _ r, .sub => [(r.fd, .opened node)]
  | .pipe _ _, .left => [(1, .pipe node true)]
  | .pipe _ _, .right => [(0, .pipe node false)]
  | _, _ => []

theorem node_nil (cmd : Cmd Str) : cmd.node [] = some cmd := by cases cmd <;> rfl

variable {cmd sub : Cmd Str} {p node : Path} {f : File}

theorem node_append {b : Branch} (h : cmd.node p = some sub) :
    cmd.node (p ++ [b]) = sub.node [b] := by
  induction p generalizing cmd with
  | nil =>
    obtain rfl := Option.some.inj ((node_nil cmd).symm.trans h)
    rfl
  | cons b' p ih =>
    cases cmd <;> cases b' <;> first | exact ih h | cases h

theorem enclosing_append (b : Branch) (h : cmd.node p = some sub) (hb : sub.node [b] ≠ none) :
    enclosing node cmd (p ++ [b]) = enclosing node cmd p ++ branchBinds (node ++ p) sub b := by
  induction p generalizing cmd node with
  | nil =>
    obtain rfl := Option.some.inj ((node_nil cmd).symm.trans h)
    cases cmd <;> cases b <;> first
      | exact absurd rfl hb
      | simp [enclosing, branchBinds]
  | cons b' p ih =>
    have below : ∀ c : Cmd Str, c.node p = some sub → enclosing (node ++ [b']) c (p ++ [b]) =
          enclosing (node ++ [b']) c p ++ branchBinds (node ++ b' :: p) sub b := fun c hc => by
      rw [ih hc, append_assoc]
      rfl
    cases cmd <;> cases b' <;> first
      | exact below _ h
      | exact congrArg (List.cons _) (below _ h)
      | cases h

/-! ## Safe code -/

/-- An `exec` as it should be. -/
structure Plumbed (root : Cmd Str) (node : Path) (argv : List Str) (t : Fds) : Prop where
  leaf : root.node node = some (.exec argv)
  open_iff : ∀ fd, (t.file fd).isSome ↔ fd < 3
  stdin : t.file 0 = some (target root node 0)
  stdout : t.file 1 = some (target root node 1)

/-- No end of a pipe of its own. -/
def Unplugged (t : Fds) (made : List Path) : Prop :=
  ∀ fd node w, t.file fd = some (.pipe node w) → node ∉ made

def Safe (root : Cmd Str) : Code → Fds → List Path → Prop
  | .ret e, _, _ => e.elim
  | .op (.close fd) k, t, made => Safe root (k ()) (t.close fd) made
  | .op (.openFile node _ _) k, t, made =>
    match fdalloc t (.opened node) with
    | none => Safe root (k false) t made
    | some (_, t') => Safe root (k true) t' made
  | .op (.dup fd) k, t, made => Safe root (k ()) (sysDup t fd) made
  | .op (.pipe node) k, t, made =>
    Safe root (k (sysPipe t node).1) (sysPipe t node).2 (node :: made)
  | .op .fork k, t, made => Safe root (k true) t [] ∧ Safe root (k false) t made
  | .op .wait k, t, made => Unplugged t made ∧ Safe root (k ()) t made
  | .op (.exec node argv) k, t, made => Plumbed root node argv t ∧ Safe root (k ()) t made
  | .op (.exit _) _, _, _ => True

theorem file_std (in_ out : File) (fd : Nat) : (std in_ out).file fd = match fd with
      | 0 => some in_
      | 1 => some out
      | 2 => some (.inherited 2)
      | _ => none := by
  match fd with
  | 0 | 1 | 2 => rfl
  | fd + 3 =>
    show ((List.replicate (NOFILE - 3) (none : Option File))[fd]?).join = none
    rw [List.getElem?_replicate]
    split <;> rfl

theorem open_std (in_ out : File) (fd : Nat) : ((std in_ out).file fd).isSome ↔ fd < 3 := by
  rw [file_std]
  match fd with
  | 0 | 1 | 2 => simp
  | fd + 3 => simp

/-- Files opened on the way to a node. -/
def Above (p : Path) : File → Prop
  | .pipe node _ => node.length < p.length
  | _ => True

theorem above_append (b : Branch) (h : Above p f) : Above (p ++ [b]) f := by
  cases f with
  | pipe node w => exact Nat.lt_of_lt_of_le h (by simp)
  | _ => trivial

theorem unplugged_std {in_ out : File} (hi : Above p in_) (ho : Above p out) :
    Unplugged (std in_ out) [p] := by
  intro fd node w h hm
  obtain rfl := mem_singleton.mp hm
  rw [file_std] at h
  match fd with
  | 0 => cases h; exact Nat.lt_irrefl _ hi
  | 1 => cases h; exact Nat.lt_irrefl _ ho
  | 2 => cases h
  | fd + 3 => cases h

theorem unplugged_nil (t : Fds) : Unplugged t [] := fun _ _ _ _ => not_mem_nil

/-- The three ways to the next node. -/
theorem target_append {root : Cmd Str} (b : Branch) (fd : Nat)
    (h : root.node p = some sub) (hb : sub.node [b] ≠ none) :
    target root (p ++ [b]) fd = innermost fd (enclosing [] root p ++ branchBinds p sub b) := by
  rw [target, enclosing_append b h hb, nil_append]

/-- A table as the node at `p` should find it. -/
structure Ready (root : Cmd Str) (p : Path) (cmd : Cmd Str) (in_ out : File) : Prop where
  node : root.node p = some cmd
  stdin : in_ = target root p 0
  stdout : out = target root p 1
  aboveIn : Above p in_
  aboveOut : Above p out

section
variable {root cmd left right : Cmd Str} {p : Path} {in_ out : File} {file : Str}

section
variable (h : Ready root p cmd in_ out) (b : Branch) (hsub : cmd.node [b] = some sub)
include h hsub

/-- A child finds its table as the bindings of its branch say. -/
theorem Ready.child (hb : branchBinds p cmd b = bs)
    (hin : innermost 0 (enclosing [] root p ++ bs) = f) (hf : Above (p ++ [b]) f)
    (hout : innermost 1 (enclosing [] root p ++ bs) = g) (hg : Above (p ++ [b]) g) :
    Ready root (p ++ [b]) sub f g := by
  have hne : cmd.node [b] ≠ none := by rw [hsub]; nofun
  refine ⟨(node_append h.node).trans hsub, ?_, ?_, hf, hg⟩
  · rw [target_append b 0 h.node hne, hb, hin]
  · rw [target_append b 1 h.node hne, hb, hout]

theorem Ready.down (hb : branchBinds p cmd b = []) : Ready root (p ++ [b]) sub in_ out :=
  h.child b hsub hb (by rw [append_nil]; exact h.stdin.symm) (above_append b h.aboveIn)
    (by rw [append_nil]; exact h.stdout.symm) (above_append b h.aboveOut)

theorem Ready.bindIn (hb : branchBinds p cmd b = [(0, f)]) (hf : Above (p ++ [b]) f) :
    Ready root (p ++ [b]) sub f out :=
  h.child b hsub hb (innermost_append_self ..) hf
    ((innermost_append_of_ne _ _ (by decide)).trans h.stdout.symm) (above_append b h.aboveOut)

theorem Ready.bindOut (hb : branchBinds p cmd b = [(1, f)]) (hf : Above (p ++ [b]) f) :
    Ready root (p ++ [b]) sub in_ f :=
  h.child b hsub hb ((innermost_append_of_ne _ _ (by decide)).trans h.stdin.symm)
    (above_append b h.aboveIn) (innermost_append_self ..) hf

end

theorem safe_exit (n : Nat) (t : Fds) (made : List Path) : Safe root (exit n) t made := trivial

/-- `runcmd` is safe at every node of the tree. -/
theorem safe_runcmd (cmd : Cmd Str) : ∀ {p : Path} {in_ out : File}, Ready root p cmd in_ out →
    Safe root (runcmd p cmd) (std in_ out) [] := by
  induction cmd with
  | exec argv =>
    intro p in_ out h
    rw [runcmd]
    split
    · exact safe_exit ..
    · exact ⟨⟨h.node, open_std in_ out, congrArg some h.stdin, congrArg some h.stdout⟩,
        safe_exit ..⟩
  | redir cmd file r ih =>
    intro p in_ out h
    have hp : Above (p ++ [Branch.sub]) (.opened p) := trivial
    -- `open` takes the descriptor that has just been closed
    cases r with
    | input => exact ih (h.bindIn .sub (node_nil cmd) rfl hp)
    | output | append => exact ih (h.bindOut .sub (node_nil cmd) rfl hp)
  | list left right ihl ihr =>
    intro p in_ out h
    exact ⟨ihl (h.down .left (node_nil left) rfl), unplugged_nil _,
      ihr (h.down .right (node_nil right) rfl)⟩
  | pipe left right ihl ihr =>
    intro p in_ out h
    have hp : ∀ b w, Above (p ++ [b]) (.pipe p w) := fun b w => by simp [Above]
    have hwait := unplugged_std h.aboveIn h.aboveOut
    -- the pipe is at descriptors 3 and 4, in all three processes
    exact ⟨ihl (h.bindOut .left (node_nil left) rfl (hp _ _)),
      ihr (h.bindIn .right (node_nil right) rfl (hp _ _)), hwait, hwait, trivial⟩
  | back cmd ih =>
    intro p in_ out h
    exact ⟨ih (h.down .sub (node_nil cmd) rfl), safe_exit ..⟩

end

/-! ## All processes -/

/-- Every running process runs safe code. -/
def Good (root : Cmd Str) (ps : Procs) : Prop :=
  ∀ p ∈ ps, ∀ code, p.status = .running code → Safe root code p.fds p.made

section
variable {root : Cmd Str} {ps : Procs} {pid : Nat} {p : Proc} {ps' : Procs}

theorem good_set (h : Good root ps) (hp : ∀ code, p.status = .running code →
    Safe root code p.fds p.made) : Good root (ps.set pid p) := by
  intro q hq
  rcases mem_or_eq_of_mem_set hq with hq | rfl
  · exact h q hq
  · exact hp

theorem good_goOn (h : Good root ps) {code : Code} (hs : Safe root code p.fds p.made) :
    Good root (ps.set pid (p.goOn code)) :=
  good_set h fun _ he => Status.running.inj he ▸ hs

theorem good_exitProc (h : Good root ps) : Good root (exitProc ps pid p) := by
  refine good_set (fun q hq code hc => ?_) nofun
  obtain ⟨q', hq', rfl⟩ := mem_map.mp hq
  split at hc <;> rename_i hpar
  · rw [if_pos hpar]
    exact h q' hq' code hc
  · rw [if_neg hpar]
    exact h q' hq' code hc

theorem good_reap (h : Good root ps) (i : Nat) :
    Good root (ps.modify i fun q => { q with status := .reaped }) := by
  intro q hq code hc
  obtain ⟨j, hj, rfl⟩ := mem_iff_getElem.mp hq
  rw [getElem_modify] at hc ⊢
  split_ifs at hc with hij
  rw [if_neg hij]
  exact h _ (getElem_mem _) code hc

/-- A call of one process leaves all of them safe. -/
theorem good_perform {ok : Bool} {c : Call} {k : calls.Res c → Code}
    (h : Good root ps) (hs : Safe root (.op (S := calls) c k) p.fds p.made)
    (he : perform ps pid p ok c k = some ps') : Good root ps' := by
  cases c with
  | close fd | dup fd => cases he; exact good_goOn h hs
  | openFile node file mode =>
    simp only [perform] at he
    simp only [Safe] at hs
    split at he <;> rename_i heq <;> rw [heq] at hs <;> cases he
    · exact good_goOn h hs
    · exact good_goOn h hs
  | pipe node => cases he; exact good_goOn h hs
  | fork =>
    cases he
    intro q hq
    rcases mem_append.mp hq with hq | hq
    · exact good_goOn h hs.2 q hq
    · obtain rfl := mem_singleton.mp hq
      exact fun _ hc => Status.running.inj hc ▸ hs.1
  | wait =>
    simp only [perform] at he
    split at he
    · cases he
      exact good_goOn (good_reap h _) hs.2
    · split_ifs at he
      cases he
      exact good_goOn h hs.2
  | exec node argv =>
    simp only [perform] at he
    split at he <;> cases he
    · exact good_set h nofun
    · exact good_goOn h hs.2
  | exit n => cases he; exact good_exitProc h

theorem good_step {a : Act} (h : Good root ps) (hs : step ps a = some ps') : Good root ps' := by
  cases a with
  | run pid ok =>
    simp only [step] at hs
    split at hs
    · rename_i p hp
      split at hs
      · rename_i c k hrun
        exact good_perform h (h p (mem_of_getElem? hp) _ hrun) hs
      · cases hs
    · cases hs
  | finish pid =>
    simp only [step] at hs
    split at hs
    · split at hs
      · cases hs
        exact good_exitProc h
      · cases hs
    · cases hs

end

theorem good_start (cmd : Cmd Str) : Good cmd (start cmd) := by
  intro p hp code hc
  obtain rfl := mem_singleton.mp hp
  obtain rfl := Status.running.inj hc
  refine safe_runcmd cmd ⟨node_nil cmd, ?_, ?_, trivial, trivial⟩
  · cases cmd <;> rfl
  · cases cmd <;> rfl

/-- Wherever a process of a command is about to call `exec`, it has descriptors 0, 1
and 2 open and no other, bound as the tree says; and wherever one is about to call
`wait`, it has no end of a pipe that it created. -/
theorem shell_plumbing {cmd : Cmd Str} {h : List (Procs × Act)} {ps : Procs}
    (r : Run (Init cmd) step h ps) : ∀ p ∈ ps,
      (∀ node argv k, p.status = .running (.op (S := calls) (.exec node argv) k) →
        Plumbed cmd node argv p.fds) ∧
      (∀ k, p.status = .running (.op (S := calls) .wait k) → Unplugged p.fds p.made) := by
  have hgood : Good cmd ps := r.inv (fun s hs => hs ▸ good_start cmd) fun _ _ _ => good_step
  exact fun p hp => ⟨fun node argv k hc => (hgood p hp _ hc).1, fun k hc => (hgood p hp _ hc).1⟩

/-- The call of `exec` that a process is about to make. -/
def Proc.atExec (p : Proc) : Option (Path × List Str) := match p.status with
  | .running (.op (.exec node argv) _) => some (node, argv)
  | _ => none

theorem status_of_atExec {p : Proc} {argv : List Str} (h : p.atExec = some (node, argv)) :
    ∃ k, p.status = .running (.op (S := calls) (.exec node argv) k) := by
  unfold Proc.atExec at h
  split at h
  · rename_i node' argv' k hs
    cases h
    exact ⟨k, hs⟩
  · cases h

/-- `ls | wc > f` -/
def lsWc : Cmd Str := .pipe (.exec ["ls".toList]) (.redir (.exec ["wc".toList]) "f".toList .output)

/-- The process of `wc` reads from the pipe and writes to the file. -/
theorem shell_plumbing_wc : ∃ (h : List (Procs × Act)) (ps : Procs), Run (Init lsWc) step h ps ∧
    ∃ p ∈ ps, p.fds.file 0 = some (.pipe [] false) ∧ p.fds.file 1 = some (.opened [.right]) ∧
      ∀ fd, (p.fds.file fd).isSome ↔ fd < 3 := by
  have he : (exec step (start lsWc) ([.run 0 true, .run 0 true, .run 0 true] ++
      List.replicate 6 (.run 2 true))).map (fun ps => ps[2]?.bind Proc.atExec) =
      some (some ([.right, .sub], ["wc".toList])) := by decide +kernel
  obtain ⟨ps, r, hv⟩ := run_of_exec (show Init lsWc (start lsWc) from rfl) he
  obtain ⟨p, hp, hat⟩ := Option.bind_eq_some_iff.mp hv
  obtain ⟨k, hk⟩ := status_of_atExec hat
  have hp := mem_of_getElem? hp
  have hplumbed := (shell_plumbing r p hp).1 _ _ k hk
  exact ⟨_, ps, r, p, hp, hplumbed.stdin, hplumbed.stdout, hplumbed.open_iff⟩

end Xv6.Shell
