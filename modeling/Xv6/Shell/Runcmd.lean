/-
# `Xv6.Shell.Runcmd` — the processes that run a command

`runcmd` of `user/sh.c` over the system calls it makes, and the processes that come
out of it.  A process has its descriptor table `ofile` to itself (`fork` copies it),
and the processes run one call at a time in any order.  `fork`, `pipe` and `open`
fail only for want of a free descriptor; `exec` may fail, and a program that was
started may exit at any time.

Nodes of the tree are named by the way that leads to them from the root, and an open
file by the node that has opened it.  These names are carried by the calls that need
them and decide nothing.  `made` lists the nodes whose pipe the process has created.
-/
import Xv6.Lib.Prog
import Xv6.Lib.Run
import Xv6.Params
import Xv6.Shell.Grammar

namespace Xv6.Shell

open Machine

/-- One step down the tree. -/
inductive Branch
  | sub
  | left
  | right
deriving DecidableEq, Repr

abbrev Path := List Branch

/-- The node at the end of a path. -/
def Cmd.node : Cmd Str → Path → Option (Cmd Str)
  | cmd, [] => some cmd
  | .redir cmd _ _, .sub :: p => cmd.node p
  | .back cmd, .sub :: p => cmd.node p
  | .pipe left _, .left :: p => left.node p
  | .list left _, .left :: p => left.node p
  | .pipe _ right, .right :: p => right.node p
  | .list _ right, .right :: p => right.node p
  | _, _ => none

/-- What a descriptor refers to. -/
inductive File
  | inherited (fd : Nat)
  | opened (node : Path)
  | pipe (node : Path) (writable : Bool)
deriving DecidableEq, Repr

/-! ## Descriptor tables -/

/-- `p->ofile`, of length `NOFILE`. -/
abbrev Fds := List (Option File)

/-- `argfd`. -/
def Fds.file (t : Fds) (fd : Nat) : Option File := (t[fd]?).join

def Fds.close (t : Fds) (fd : Nat) : Fds := t.set fd none

/-- The first free descriptor. -/
def Fds.free : Fds → Option Nat
  | [] => none
  | none :: _ => some 0
  | some _ :: t => (Fds.free t).map (· + 1)

def fdalloc (t : Fds) (f : File) : Option (Nat × Fds) :=
  t.free.map fun fd => (fd, t.set fd (some f))

/-- The new table after `dup(fd)`. -/
def sysDup (t : Fds) (fd : Nat) : Fds :=
  match t.file fd with
  | none => t
  | some f =>
    match fdalloc t f with
    | none => t
    | some (_, t) => t

/-- `pipe(p)`: the two descriptors, or failure. -/
def sysPipe (t : Fds) (node : Path) : Option (Nat × Nat) × Fds :=
  match fdalloc t (.pipe node false) with
  | none => (none, t)
  | some (fd0, t₀) =>
    match fdalloc t₀ (.pipe node true) with
    | none => (none, t₀.close fd0)
    | some (fd1, t₁) => (some (fd0, fd1), t₁)

/-! ## `runcmd` -/

inductive Call
  | close (fd : Nat)
  | openFile (node : Path) (file : Str) (mode : Nat)
  | dup (fd : Nat)
  | pipe (node : Path)
  | fork
  | wait
  | exec (node : Path) (argv : List Str)
  | exit (status : Nat)

/-- `openFile` answers whether it succeeded, `fork` whether this is the child; `exec`
answers only when it has failed, and `exit` never. -/
def calls : Sig where
  Op := Call
  Res
    | .close _ | .dup _ | .wait | .exec .. => Unit
    | .openFile .. | .fork => Bool
    | .pipe _ => Option (Nat × Nat)
    | .exit _ => Empty

abbrev Code := Prog calls Empty

def exit (status : Nat) : Code := .op (S := calls) (.exit status) Empty.elim

def close (fd : Nat) : Prog calls Unit := .call (S := calls) (.close fd)

def dup (fd : Nat) : Prog calls Unit := .call (S := calls) (.dup fd)

def wait : Prog calls Unit := .call (S := calls) .wait

/-- `fork1() == 0`; `fork` does not fail. -/
def fork1 : Prog calls Bool := .call (S := calls) .fork

def runcmd : Path → Cmd Str → Code
  | node, .exec argv =>
    if argv = [] then exit 1
    else do
      let _ : Unit ← .call (S := calls) (.exec node argv)
      exit 0
  | node, .redir cmd file r => do
    close r.fd
    let ok : Bool ← .call (S := calls) (.openFile node file r.mode)
    if ok then runcmd (node ++ [.sub]) cmd else exit 1
  | node, .list left right => do
    if ← fork1 then runcmd (node ++ [.left]) left
    else do
      wait
      runcmd (node ++ [.right]) right
  | node, .pipe left right => do
    let p : Option (Nat × Nat) ← .call (S := calls) (.pipe node)
    match p with
    | none => exit 1
    | some (p0, p1) => do
      if ← fork1 then
        close 1
        dup p1
        close p0
        close p1
        runcmd (node ++ [.left]) left
      else if ← fork1 then
        close 0
        dup p0
        close p0
        close p1
        runcmd (node ++ [.right]) right
      else
        close p0
        close p1
        wait
        wait
        exit 0
  | node, .back cmd => do
    if ← fork1 then runcmd (node ++ [.sub]) cmd
    else exit 0

/-! ## Processes -/

inductive Status
  | running (code : Code)
  | execed
  | zombie
  | reaped

structure Proc where
  fds : Fds
  made : List Path
  parent : Option Nat
  status : Status

/-- Processes are numbered in the order of their creation. -/
abbrev Procs := List Proc

def Proc.goOn (p : Proc) (code : Code) : Proc := { p with status := .running code }

/-- `exit`: the children are passed on to `init`. -/
def exitProc (ps : Procs) (pid : Nat) (p : Proc) : Procs :=
  (ps.map fun q => if q.parent = some pid then { q with parent := none } else q).set pid
    { p with fds := [], status := .zombie, parent := p.parent }

def Proc.isChild (q : Proc) (pid : Nat) : Bool :=
  q.parent = some pid && match q.status with
    | .reaped => false
    | _ => true

def Proc.isZombie (q : Proc) : Bool :=
  match q.status with
  | .zombie => true
  | _ => false

/-- The first zombie child, in the order of the table. -/
def zombieChild (ps : Procs) (pid : Nat) : Option Nat :=
  (List.range ps.length).find? fun i => ps[i]?.any fun q => q.isChild pid && q.isZombie

/-- One call by process `pid`; `ok` says whether an `exec` succeeds. -/
def perform (ps : Procs) (pid : Nat) (p : Proc) (ok : Bool) :
    (c : Call) → (calls.Res c → Code) → Option Procs
  | .close fd, k => some (ps.set pid ({ p with fds := p.fds.close fd }.goOn (k ())))
  | .openFile node _ _, k =>
    match fdalloc p.fds (.opened node) with
    | none => some (ps.set pid (p.goOn (k false)))
    | some (_, t) => some (ps.set pid ({ p with fds := t }.goOn (k true)))
  | .dup fd, k => some (ps.set pid ({ p with fds := sysDup p.fds fd }.goOn (k ())))
  | .pipe node, k =>
    let (r, t) := sysPipe p.fds node
    some (ps.set pid ({ p with fds := t, made := node :: p.made }.goOn (k r)))
  | .fork, k =>
    some (ps.set pid (p.goOn (k false)) ++ [⟨p.fds, [], some pid, .running (k true)⟩])
  | .wait, k =>
    match zombieChild ps pid with
    | some i => some ((ps.modify i fun q => { q with status := .reaped }).set pid (p.goOn (k ())))
    | none =>
      -- with no child at all `wait` returns at once
      if ps.any (·.isChild pid) then none else some (ps.set pid (p.goOn (k ())))
  | .exec _ _, k =>
    if ok then some (ps.set pid { p with status := .execed })
    else some (ps.set pid (p.goOn (k ())))
  | .exit _, _ => some (exitProc ps pid p)

inductive Act
  | run (pid : Nat) (ok : Bool)
  /-- A program that was started calls `exit`. -/
  | finish (pid : Nat)

def step (ps : Procs) : Act → Option Procs
  | .run pid ok =>
    match ps[pid]? with
    | some p =>
      match p.status with
      | .running (.op c k) => perform ps pid p ok c k
      | _ => none
    | none => none
  | .finish pid =>
    match ps[pid]? with
    | some p =>
      match p.status with
      | .execed => some (exitProc ps pid p)
      | _ => none
    | none => none

/-- A table with descriptors 0, 1 and 2 open. -/
def std (in_ out : File) : Fds :=
  [some in_, some out, some (.inherited 2)] ++ List.replicate (NOFILE - 3) none

/-- The child of the shell that runs `cmd`. -/
def start (cmd : Cmd Str) : Procs :=
  [⟨std (.inherited 0) (.inherited 1), [], none, .running (runcmd [] cmd)⟩]

def Init (cmd : Cmd Str) (ps : Procs) : Prop := ps = start cmd

end Xv6.Shell
