/-
# `Xv6.Files.Machine` — descriptors, open files, pipes

The file table of `kernel/file.c` (`filealloc`, `filedup`, `fileclose`), the pipe
pages of `kernel/pipe.c` (`pipealloc`, `pipeclose`), and the calls of
`kernel/sysfile.c` and `kernel/proc.c` that make and drop references to open
files: `open`, `dup`, `close`, `pipe`, `fork`, `exit`.

  * A section under `ftable.lock` or `pi->lock` is one step; so is a statement
    that touches only what belongs to the process (its descriptor table, a file
    structure nobody else has yet).
  * `fileclose` is the section that drops the reference and, if it was the last
    one, `pipeclose` or `iput` on a copy of the structure, and `kfree` of the
    pipe's page after its second `pipeclose`; what is done after it returns is
    its continuation.
  * What a path name leads to, whether `kalloc` finds a page, `copyout` succeeds
    or `allocproc` finds a slot is left open: such results come with the action.
    `namei` and `create` are seen here as a reference to one more inode.
  * An access to a page that is not a pipe (any more) stops the machine, as a
    `panic` does.
-/
import Mathlib.Data.List.FinRange
import Xv6.Lib.Run

namespace Xv6.Files

open Function

/-- `enum { FD_NONE, FD_PIPE, FD_INODE, FD_DEVICE }`. -/
inductive FdType
  | none
  | pipe
  | inode
  | device
  deriving DecidableEq, Repr

/-- `struct file`, without the fields that only `fileread` and `filewrite` use. -/
structure File (P I : Nat) where
  ref : Nat
  type : FdType
  readable : Bool
  writable : Bool
  pipe : Option (Fin P)
  ip : Option (Fin I)
  deriving DecidableEq, Repr

/-- The sides of a `struct pipe`; its data is the subject of `Xv6.Pipes`. -/
structure Pipe where
  readopen : Bool
  writeopen : Bool
  deriving DecidableEq, Repr

/-- The inode `open` found and what it will write into the file structure. -/
structure Opened (I : Nat) where
  ip : Fin I
  device : Bool
  readable : Bool
  writable : Bool
  deriving DecidableEq, Repr

/-- What is left to do when `fileclose` returns. -/
inductive Kont (F K I : Nat)
  | ret (v : Option Nat)
  -- `sys_open`: `iunlockput(ip)`, and -1
  | put (ip : Fin I)
  -- `pipealloc`, `sys_pipe`: `fileclose` of the other file, and -1
  | close (f : Fin F)
  -- `exit`: `p->ofile[fd] = 0`, and on with the loop
  | clear (fd : Fin K)
  deriving DecidableEq, Repr

/-- Where a process is. -/
inductive PC (N F K P I : Nat)
  | unused
  | embryo
  | zombie
  | run
  -- sys_open: `filealloc`; `fdalloc`; the fields of `f`; `iunlockput`
  | openFile (o : Opened I)
  | openFd (f : Fin F) (o : Opened I)
  | openSet (f : Fin F) (fd : Fin K) (o : Opened I)
  | openPut (ip : Fin I)
  -- sys_dup: `filedup`
  | dupRef (f : Fin F) (fd : Fin K)
  -- fileclose and what it calls
  | close (f : Fin F) (k : Kont F K I)
  | pipeclose (pi : Fin P) (writable : Bool) (k : Kont F K I)
  | kfree (pi : Fin P) (k : Kont F K I)
  | iput (ip : Fin I) (k : Kont F K I)
  -- pipealloc: twice `filealloc`, `kalloc`; sys_pipe: twice `fdalloc`, `copyout`
  | pipeF0
  | pipeF1 (f0 : Fin F)
  | pipeMem (f0 f1 : Fin F)
  | pipeFd0 (f0 f1 : Fin F)
  | pipeFd1 (f0 f1 : Fin F) (fd0 : Fin K)
  | pipeCopy (f0 f1 : Fin F) (fd0 fd1 : Fin K)
  -- fork: `filedup(p->ofile[i])`; its store into the child's table; the rest
  | forkDup (np : Fin N) (i : Nat)
  | forkStore (np : Fin N) (i : Fin K) (f : Fin F)
  | forkCwd (np : Fin N)
  -- exit: the loop; the store after `fileclose`; the current directory
  | exitFd (i : Nat)
  | clear (fd : Fin K)
  | exitCwd
  deriving DecidableEq, Repr

structure Proc (N F K P I : Nat) where
  ofile : Fin K → Option (Fin F)
  cwd : Option (Fin I)
  pc : PC N F K P I
  /-- The result of the last call, `none` for -1. -/
  ret : Option Nat

structure Sys (N F K P I : Nat) where
  file : Fin F → File P I
  proc : Fin N → Proc N F K P I
  /-- The pages, those that are pipes with their contents. -/
  page : Fin P → Option Pipe
  /-- `ip->ref`, as far as it comes from open files, current directories and `open`. -/
  iref : Fin I → Nat
  panic : Option String

variable {N F K P I : Nat} (s : Sys N F K P I) (p : Fin N)

/-! ## The tables -/

def Sys.setProc (r : Proc N F K P I) : Sys N F K P I :=
  { s with proc := update s.proc p r }

def Sys.goto (pc : PC N F K P I) : Sys N F K P I :=
  s.setProc p { s.proc p with pc }

def Sys.setFile (f : Fin F) (v : File P I) : Sys N F K P I :=
  { s with file := update s.file f v }

def Sys.fail (msg : String) : Sys N F K P I := { s with panic := some msg }

/-- A system call returns. -/
def Sys.ret (v : Option Nat) : Sys N F K P I :=
  s.setProc p { s.proc p with pc := .run, ret := v }

def Sys.setSlot (fd : Fin K) (v : Option (Fin F)) : Sys N F K P I :=
  s.setProc p { s.proc p with ofile := update (s.proc p).ofile fd v }

/-- The entry `filealloc` finds. -/
def freeFile : Option (Fin F) :=
  (List.finRange F).find? fun f => (s.file f).ref = 0

/-- The descriptor `fdalloc` finds. -/
def freeFd (r : Proc N F K P I) : Option (Fin K) :=
  (List.finRange K).find? fun fd => r.ofile fd = none

def filealloc (f : Fin F) : Sys N F K P I :=
  s.setFile f { s.file f with ref := 1 }

/-- The section of `filedup`. -/
def filedup (f : Fin F) : Except String (Sys N F K P I) :=
  if (s.file f).ref < 1 then .error "filedup"
  else .ok (s.setFile f { s.file f with ref := (s.file f).ref + 1 })

/-- What follows when `fileclose` is through. -/
def Sys.resume : Kont F K I → Sys N F K P I
  | .ret v => s.ret p v
  | .put ip => s.goto p (.openPut ip)
  | .close f => s.goto p (.close f (.ret none))
  | .clear fd => s.goto p (.clear fd)

/-- `fileclose`: the section under `ftable.lock`, and the branch on the copy. -/
def fileclose (f : Fin F) (k : Kont F K I) : Sys N F K P I :=
  if (s.file f).ref < 1 then s.fail "fileclose"
  else if (s.file f).ref - 1 > 0 then
    (s.setFile f { s.file f with ref := (s.file f).ref - 1 }).resume p k
  else
    let ff := s.file f
    let t := s.setFile f { s.file f with ref := 0, type := .none }
    match ff.type, ff.pipe, ff.ip with
    | .none, _, _ => t.resume p k
    | .pipe, some pi, _ => t.goto p (.pipeclose pi ff.writable k)
    | .pipe, none, _ => t.fail "kerneltrap"
    | .inode, _, some ip | .device, _, some ip => t.goto p (.iput ip k)
    | .inode, _, none | .device, _, none => t.fail "kerneltrap"

/-- `pipeclose`. -/
def pipeclose (pi : Fin P) (writable : Bool) (k : Kont F K I) :
    Sys N F K P I :=
  match s.page pi with
  | none => s.fail "kerneltrap"
  | some pp =>
    let pp := if writable then { pp with writeopen := false } else { pp with readopen := false }
    let t := { s with page := update s.page pi (some pp) }
    if pp.readopen = false ∧ pp.writeopen = false then t.goto p (.kfree pi k) else t.resume p k

def kfree (pi : Fin P) (k : Kont F K I) : Sys N F K P I :=
  match s.page pi with
  | none => s.fail "kfree"
  | some _ => Sys.resume { s with page := update s.page pi none } p k

def iput (ip : Fin I) : Sys N F K P I :=
  { s with iref := update s.iref ip (s.iref ip - 1) }

def idup (ip : Fin I) : Sys N F K P I :=
  { s with iref := update s.iref ip (s.iref ip + 1) }

/-! ## System calls -/

inductive Call (N K I : Nat)
  -- `none`: the path leads nowhere; `ok`: the checks of the inode's type are passed
  | open (o : Option (Opened I)) (ok : Bool)
  | dup (fd : Nat)
  | close (fd : Nat)
  | pipe
  -- the slot `allocproc` finds, and whether `uvmcopy` succeeds
  | fork (np : Option (Fin N)) (ok : Bool)
  | exit
  deriving DecidableEq, Repr

/-- `argfd`. -/
def argfd (r : Proc N F K P I) (fd : Nat) : Option (Fin K × Fin F) :=
  if h : fd < K then (r.ofile ⟨fd, h⟩).map fun f => (⟨fd, h⟩, f) else none

/-- A process makes a system call; up to its first shared step. -/
def call : Call N K I → Option (Sys N F K P I)
  | .open none _ => some (s.ret p none)
  | .open (some o) ok =>
    some ((idup s o.ip).goto p (if ok then .openFile o else .openPut o.ip))
  | .dup fd =>
    match argfd (s.proc p) fd, freeFd (s.proc p) with
    | some (_, f), some fd => some ((s.setSlot p fd (some f)).goto p (.dupRef f fd))
    | _, _ => some (s.ret p none)
  | .close fd =>
    match argfd (s.proc p) fd with
    | none => some (s.ret p none)
    | some (fd, f) => some ((s.setSlot p fd none).goto p (.close f (.ret (some 0))))
  | .pipe => some (s.goto p .pipeF0)
  | .fork none _ => some (s.ret p none)
  | .fork (some np) ok =>
    if (s.proc np).pc = .unused then
      if ok then some ((s.goto np .embryo).goto p (.forkDup np 0)) else some (s.ret p none)
    else none
  | .exit => some (s.goto p (.exitFd 0))

/-- `pipealloc` has its page: the two ends are set up. -/
def pipeSetup (f0 f1 : Fin F) (pi : Fin P) : Sys N F K P I :=
  Sys.setFile (Sys.setFile { s with page := update s.page pi (some ⟨true, true⟩) } f0
    { s.file f0 with type := .pipe, readable := true, writable := false, pipe := some pi }) f1
    { s.file f1 with type := .pipe, readable := false, writable := true, pipe := some pi }

/-- The fields `sys_open` sets. -/
def File.open (f : File P I) (o : Opened I) : File P I :=
  { f with
    type := if o.device then .device else .inode
    ip := some o.ip
    readable := o.readable
    writable := o.writable }

/-- The next step of a process inside a call.  `mem` is the page `kalloc` returns,
`ok` whether `copyout` succeeds. -/
def run (mem : Option (Fin P)) (ok : Bool) :
    Option (Sys N F K P I) :=
  match (s.proc p).pc with
  | .unused | .embryo | .zombie | .run => none
  | .openFile o =>
    match freeFile s with
    | some f => some ((filealloc s f).goto p (.openFd f o))
    | none => some (s.goto p (.openPut o.ip))
  | .openFd f o =>
    match freeFd (s.proc p) with
    | some fd => some ((s.setSlot p fd (some f)).goto p (.openSet f fd o))
    | none => some (s.goto p (.close f (.put o.ip)))
  | .openSet f fd o => some ((s.setFile f ((s.file f).open o)).ret p (some fd))
  | .openPut ip => some ((iput s ip).ret p none)
  | .dupRef f fd =>
    match filedup s f with
    | .error msg => some (s.fail msg)
    | .ok t => some (t.ret p (some fd))
  | .close f k => some (fileclose s p f k)
  | .pipeclose pi writable k => some (pipeclose s p pi writable k)
  | .kfree pi k => some (kfree s p pi k)
  | .iput ip k => some ((iput s ip).resume p k)
  | .pipeF0 =>
    match freeFile s with
    | some f => some ((filealloc s f).goto p (.pipeF1 f))
    | none => some (s.ret p none)
  | .pipeF1 f0 =>
    match freeFile s with
    | some f => some ((filealloc s f).goto p (.pipeMem f0 f))
    | none => some (s.goto p (.close f0 (.ret none)))
  | .pipeMem f0 f1 =>
    match mem with
    | none => some (s.goto p (.close f0 (.close f1)))
    | some pi =>
      if s.page pi = none then some ((pipeSetup s f0 f1 pi).goto p (.pipeFd0 f0 f1)) else none
  | .pipeFd0 f0 f1 =>
    match freeFd (s.proc p) with
    | some fd => some ((s.setSlot p fd (some f0)).goto p (.pipeFd1 f0 f1 fd))
    | none => some (s.goto p (.close f0 (.close f1)))
  | .pipeFd1 f0 f1 fd0 =>
    match freeFd (s.proc p) with
    | some fd => some ((s.setSlot p fd (some f1)).goto p (.pipeCopy f0 f1 fd0 fd))
    | none => some ((s.setSlot p fd0 none).goto p (.close f0 (.close f1)))
  | .pipeCopy f0 f1 fd0 fd1 =>
    if ok then some (s.ret p (some 0))
    else some (((s.setSlot p fd0 none).setSlot p fd1 none).goto p (.close f0 (.close f1)))
  | .forkDup np i =>
    if h : i < K then
      match (s.proc p).ofile ⟨i, h⟩ with
      | none => some (s.goto p (.forkDup np (i + 1)))
      | some f =>
        match filedup s f with
        | .error msg => some (s.fail msg)
        | .ok t => some (t.goto p (.forkStore np ⟨i, h⟩ f))
    else some (s.goto p (.forkCwd np))
  | .forkStore np i f => some ((s.setSlot np i (some f)).goto p (.forkDup np (i + 1)))
  | .forkCwd np =>
    match (s.proc p).cwd with
    | none => some (s.fail "kerneltrap")
    | some ip =>
      some (((idup s ip).setProc np { s.proc np with cwd := some ip, pc := .run }).ret p
        (some np))
  | .exitFd i =>
    if h : i < K then
      match (s.proc p).ofile ⟨i, h⟩ with
      | none => some (s.goto p (.exitFd (i + 1)))
      | some f => some (s.goto p (.close f (.clear ⟨i, h⟩)))
    else some (s.goto p .exitCwd)
  | .clear fd => some ((s.setSlot p fd none).goto p (.exitFd (fd + 1)))
  | .exitCwd =>
    match (s.proc p).cwd with
    | none => some (s.fail "kerneltrap")
    | some ip => some ((iput s ip).setProc p { s.proc p with cwd := none, pc := .zombie })

/-! ## The machine -/

inductive Act (N K P I : Nat)
  | call (p : Fin N) (c : Call N K I)
  | run (p : Fin N) (mem : Option (Fin P)) (ok : Bool)
  -- `wait` frees the slot of a process that has exited
  | reap (q : Fin N)

def step (s : Sys N F K P I) (a : Act N K P I) : Option (Sys N F K P I) :=
  if s.panic ≠ none then none
  else match a with
    | .call p c => if (s.proc p).pc = .run then call s p c else none
    | .run p mem ok => run s p mem ok
    | .reap q => if (s.proc q).pc = .zombie then some (s.goto q .unused) else none

/-- The machine boots: no file is open, and one process runs, in the root directory. -/
structure Init (s : Sys N F K P I) : Prop where
  file : ∀ f, (s.file f).ref = 0 ∧ (s.file f).type = .none
  ofile : ∀ p fd, (s.proc p).ofile fd = none
  page : ∀ pi, s.page pi = none
  panic : s.panic = none
  procs : ∃ p₀ root, (s.proc p₀).pc = .run ∧ (s.proc p₀).cwd = some root ∧
    (∀ p, p ≠ p₀ → (s.proc p).pc = .unused ∧ (s.proc p).cwd = none) ∧
    ∀ ip, s.iref ip = if ip = root then 1 else 0

end Xv6.Files
