/-
# `Xv6.Mem.Proc` — processes, open files and pipes, and the system calls on them

The process table of `kernel/proc.c`, the file table of `kernel/file.c` and the pipes
of `kernel/pipe.c`, as far as they own pages, and the system calls that allocate and
free them.  A system call is a program on the whole state that may panic.

`guard`, `pipes`, `kern` and `creator` are history: the page that `exec` made the
stack guard (until `sbrk` takes it away), the pipes that were allocated and not yet
freed, the pages the kernel allocated for good at boot, and the process that a pipe
was allocated for.
-/
import Xv6.Mem.Exec

namespace Xv6.Mem

open Function

inductive ProcState
  | unused | used | runnable | zombie
  deriving DecidableEq

structure Proc where
  state : ProcState
  xstate : Int
  pid : Nat
  parent : Option (Fin NPROC)
  sz : Nat
  pagetable : Option Pgtbl
  trapframe : Option Pa
  ofile : Fin NOFILE → Option (Fin NFILE)
  guard : Option Nat

inductive FdType
  | none | pipe | inode | device
  deriving DecidableEq

structure File where
  type : FdType
  ref : Nat
  readable : Bool
  writable : Bool
  pipe : Pa

structure Pipe where
  readopen : Bool
  writeopen : Bool
  creator : Nat

structure Sys where
  kmem : Kmem
  proc : Fin NPROC → Proc
  nextpid : Nat
  initproc : Option (Fin NPROC)
  file : Fin NFILE → File
  pipe : Pa → Pipe
  pipes : List Pa
  kern : List Pa

/-- A system call. -/
abbrev Call := StateT Sys (Except String)

/-- Code that only touches the allocator. -/
def onKmem {α : Type} (m : Kern α) : Call α := fun s => do
  let (a, k) ← m s.kmem
  return (a, { s with kmem := k })

variable (im : Image) (p : Fin NPROC)

def setProc (f : Proc → Proc) : Call Unit :=
  modify fun s => { s with proc := update s.proc p (f (s.proc p)) }

def setFile (f : Fin NFILE) (g : File → File) : Call Unit :=
  modify fun s => { s with file := update s.file f (g (s.file f)) }

def setPipe (pi : Pa) (g : Pipe → Pipe) : Call Unit :=
  modify fun s => { s with pipe := update s.pipe pi (g (s.pipe pi)) }

/-! ## Open files and pipes -/

def filealloc : Call (Option (Fin NFILE)) := do
  let s ← get
  match (List.finRange NFILE).find? fun f => (s.file f).ref = 0 with
  | none => return none
  | some f => do
    setFile f fun x => { x with ref := 1 }
    return some f

def filedup (f : Fin NFILE) : Call Unit := do
  let s ← get
  if (s.file f).ref < 1 then throw "filedup"
  else setFile f fun x => { x with ref := x.ref + 1 }

def pipeclose (pi : Pa) (writable : Bool) : Call Unit := do
  setPipe pi fun x =>
    if writable = true then { x with writeopen := false } else { x with readopen := false }
  let s ← get
  if (s.pipe pi).readopen = false ∧ (s.pipe pi).writeopen = false then do
    modify fun s => { s with pipes := s.pipes.erase pi }
    onKmem (kfree im.kend pi)
  else return ()

/-- For an inode the reference goes back to the file system. -/
def fileclose (im : Image) (f : Fin NFILE) : Call Unit := do
  let s ← get
  if (s.file f).ref < 1 then throw "fileclose"
  else if 0 < (s.file f).ref - 1 then setFile f fun x => { x with ref := x.ref - 1 }
  else do
    let ff := s.file f
    setFile f fun x => { x with ref := 0, type := .none }
    if ff.type = .pipe then pipeclose im ff.pipe ff.writable
    else return ()

/-- `bad:` of `pipealloc`, where no pipe is allocated yet. -/
def pipeallocBad (f0 f1 : Option (Fin NFILE)) :
    Call (Option (Fin NFILE × Fin NFILE)) := do
  match f0 with
  | none => pure ()
  | some f => fileclose im f
  match f1 with
  | none => pure ()
  | some f => fileclose im f
  return none

/-- `t` is the calling process. -/
def pipealloc (t : Nat) : Call (Option (Fin NFILE × Fin NFILE)) := do
  match ← filealloc with
  | none => pipeallocBad im none none
  | some f0 =>
    match ← filealloc with
    | none => pipeallocBad im (some f0) none
    | some f1 =>
      match ← onKmem (kalloc t) with
      | none => pipeallocBad im (some f0) (some f1)
      | some pi => do
        setPipe pi fun _ => ⟨true, true, t⟩
        modify fun s => { s with pipes := pi :: s.pipes }
        setFile f0 fun x => { x with type := .pipe, readable := true, writable := false, pipe := pi }
        setFile f1 fun x => { x with type := .pipe, readable := false, writable := true, pipe := pi }
        return some (f0, f1)

def setOfile (fd : Fin NOFILE) (f : Option (Fin NFILE)) : Call Unit :=
  setProc p fun x => { x with ofile := update x.ofile fd f }

def fdalloc (f : Fin NFILE) : Call (Option (Fin NOFILE)) := do
  let s ← get
  match (List.finRange NOFILE).find? fun fd => (s.proc p).ofile fd = none with
  | none => return none
  | some fd => do
    setOfile p fd (some f)
    return some fd

/-- The open file of descriptor `fd`. -/
def argfd (fd : Int) : Call (Option (Fin NOFILE × Fin NFILE)) := do
  let s ← get
  if h : fd < 0 ∨ NOFILE ≤ fd then return none
  else
    let fd : Fin NOFILE := ⟨fd.toNat, by omega⟩
    match (s.proc p).ofile fd with
    | none => return none
    | some f => return some (fd, f)

def sysDup (fd : Int) : Call Int := do
  match ← argfd p fd with
  | none => return -1
  | some (_, f) =>
    match ← fdalloc p f with
    | none => return -1
    | some fd => do
      filedup f
      return fd

def sysClose (fd : Int) : Call Int := do
  match ← argfd p fd with
  | none => return -1
  | some (fd, f) => do
    setOfile p fd none
    fileclose im f
    return 0

/-- `sys_open` from the point where it holds the inode on. -/
def sysOpen (device readable writable : Bool) : Call Int := do
  match ← filealloc with
  | none => return -1
  | some f =>
    match ← fdalloc p f with
    | none => do
      fileclose im f
      return -1
    | some fd => do
      setFile f fun x =>
        { x with type := if device then .device else .inode, readable, writable }
      return fd

/-- `copyout` to a process. -/
def copyoutTo (p : Proc) (dstva len : Nat) : Bool :=
  match p.pagetable with
  | none => false
  | some pt => copyout pt dstva len

def sysPipe (fdarray : Nat) : Call Int := do
  let s ← get
  match ← pipealloc im (s.proc p).pid with
  | none => return -1
  | some (rf, wf) =>
    match ← fdalloc p rf with
    | none => do
      fileclose im rf
      fileclose im wf
      return -1
    | some fd0 =>
      match ← fdalloc p wf with
      | none => do
        setOfile p fd0 none
        fileclose im rf
        fileclose im wf
        return -1
      | some fd1 =>
        if copyoutTo (s.proc p) fdarray 4 = false ∨
            copyoutTo (s.proc p) ((fdarray + 4) % 2 ^ 64) 4 = false then do
          setOfile p fd0 none
          setOfile p fd1 none
          fileclose im rf
          fileclose im wf
          return -1
        else return 0

/-! ## Processes -/

def freeproc : Call Unit := do
  let s ← get
  match (s.proc p).trapframe with
  | some tf => onKmem (kfree im.kend tf)
  | none => pure ()
  setProc p fun x => { x with trapframe := none }
  match (s.proc p).pagetable with
  | some pt => onKmem (procFreepagetable im pt (s.proc p).sz)
  | none => pure ()
  setProc p fun x =>
    { x with pagetable := none, sz := 0, pid := 0, parent := none, xstate := 0, state := .unused,
             guard := none }

def allocpid : Call Nat := do
  let s ← get
  set { s with nextpid := s.nextpid + 1 }
  return s.nextpid

def allocproc : Call (Option (Fin NPROC)) := do
  let s ← get
  match (List.finRange NPROC).find? fun p => (s.proc p).state = .unused with
  | none => return none
  | some p => do
    let pid ← allocpid
    setProc p fun x => { x with pid, state := .used }
    match ← onKmem (kalloc pid) with
    | none => do
      setProc p fun x => { x with trapframe := none }
      freeproc im p
      return none
    | some tf => do
      setProc p fun x => { x with trapframe := some tf }
      match ← onKmem (procPagetable im pid tf) with
      | none => do
        setProc p fun x => { x with pagetable := none }
        freeproc im p
        return none
      | some pt => do
        setProc p fun x => { x with pagetable := some pt }
        return some p

/-- The guard page is still there when the process has size `sz`. -/
def keepGuard (guard : Option Nat) (sz : Nat) : Option Nat :=
  guard.filter fun g => g < PGROUNDUP sz / PGSIZE

def growproc (n : Int) : Call Int := do
  let s ← get
  let sz := (s.proc p).sz
  match (s.proc p).pagetable with
  | none => throw "kerneltrap"
  | some pt =>
    if 0 < n then do
      let (sz, pt) ← onKmem (uvmalloc im.kend (s.proc p).pid pt sz ((sz + n) % 2 ^ 64).toNat
        ⟨false, true, false, false⟩)
      setProc p fun x => { x with pagetable := some pt }
      if sz = 0 then return -1
      else do
        setProc p fun x => { x with sz }
        return 0
    else if n < 0 then do
      let (sz, pt) ← onKmem (uvmdealloc im.kend pt sz ((sz + n) % 2 ^ 64).toNat)
      setProc p fun x => { x with pagetable := some pt, sz, guard := keepGuard x.guard sz }
      return 0
    else return 0

/-- The calls of `filedup` in `fork`. -/
def dupFiles (p np : Fin NPROC) : Call Unit :=
  (List.finRange NOFILE).forM fun i => do
    let s ← get
    match (s.proc p).ofile i with
    | none => pure ()
    | some f => do
      filedup f
      setOfile np i (some f)

def fork : Call Int := do
  match ← allocproc im with
  | none => return -1
  | some np => do
    let s ← get
    match (s.proc p).pagetable, (s.proc np).pagetable with
    | some old, some new =>
      let (ok, new) ← onKmem (uvmcopy im.kend (s.proc np).pid old new (s.proc p).sz)
      setProc np fun x => { x with pagetable := some new }
      if ok = false then do
        freeproc im np
        return -1
      else do
        setProc np fun x => { x with sz := (s.proc p).sz, guard := (s.proc p).guard }
        dupFiles p np
        setProc np fun x => { x with parent := some p }
        setProc np fun x => { x with state := .runnable }
        return (s.proc np).pid
    | _, _ => throw "kerneltrap"

def reparent : Call Unit := modify fun s =>
  { s with proc := fun q =>
      if (s.proc q).parent = some p then { s.proc q with parent := s.initproc } else s.proc q }

/-- The loop of `exit` over the descriptors. -/
def closeFiles : Call Unit :=
  (List.finRange NOFILE).forM fun fd => do
    let s ← get
    match (s.proc p).ofile fd with
    | none => pure ()
    | some f => do
      fileclose im f
      setOfile p fd none

def exit (status : Int) : Call Unit := do
  let s ← get
  if s.initproc = some p then throw "init exiting"
  else do
    closeFiles im p
    reparent p
    setProc p fun x => { x with xstate := status, state := .zombie }

/-- `none` where the call sleeps.  The scan stops at the first child that has exited. -/
def wait (addr : Nat) (killed : Bool) : Call (Option Int) := do
  let s ← get
  match (List.finRange NPROC).find? fun q =>
      (s.proc q).parent = some p ∧ (s.proc q).state = .zombie with
  | some q =>
    let pid := (s.proc q).pid
    if addr ≠ 0 ∧ copyoutTo (s.proc p) addr 4 = false then return some (-1)
    else do
      freeproc im q
      return some pid
  | none =>
    if ¬ (∃ q, (s.proc q).parent = some p) ∨ killed = true then return some (-1)
    else return none

/-! ## exec -/

/-- What `fetchaddr` and `fetchstr` find in `uargv[i]`: a bad address, the null
pointer, or a pointer to a string of some length (`none` for a bad one). -/
inductive Uarg
  | fault
  | null
  | str (len : Option Nat)

/-- The loop of `sys_exec`: `false` where it jumps to `bad`, and the pages and lengths
of the strings in `argv`. -/
def fetchArgs (t : Nat) : List Uarg → Nat → List (Pa × Nat) → Kern (Bool × List (Pa × Nat))
  | [], _, argv => return (false, argv)
  | uarg :: uargs, i, argv =>
    if MAXARG ≤ i then return (false, argv)
    else
      match uarg with
      | .fault => return (false, argv)
      | .null => return (true, argv)
      | .str len => do
        match ← kalloc t with
        | none => return (false, argv)
        | some pa =>
          match len with
          | none => return (false, argv ++ [(pa, 0)])
          | some len => fetchArgs t uargs (i + 1) (argv ++ [(pa, len)])

def freeArgs (argv : List (Pa × Nat)) : Kern Unit :=
  argv.forM fun x => kfree im.kend x.1

def exec (file : Option Elf) (argv : List Nat) : Call Int := do
  let s ← get
  match (s.proc p).trapframe, (s.proc p).pagetable with
  | some tf, some oldpagetable =>
    let oldsz := (s.proc p).sz
    match ← onKmem (execImage im (s.proc p).pid tf file argv) with
    | none => return -1
    | some l => do
      setProc p fun x =>
        { x with pagetable := some l.pagetable, sz := l.sz,
                 guard := some (l.sz / PGSIZE - (USERSTACK + 1)) }
      onKmem (procFreepagetable im oldpagetable oldsz)
      return l.argc
  | _, _ => throw "kerneltrap"

/-- `path` says whether the path could be fetched. -/
def sysExec (path : Bool) (uargs : List Uarg) (file : Option Elf) :
    Call Int := do
  let s ← get
  if path = false then return -1
  else do
    let (ok, argv) ← onKmem (fetchArgs (s.proc p).pid uargs 0 [])
    if ok = false then do
      onKmem (freeArgs im argv)
      return -1
    else do
      let ret ← exec im p file (argv.map Prod.snd)
      onKmem (freeArgs im argv)
      return ret

/-! ## Boot -/

def uvmfirst (t : Nat) (pt : Pgtbl) : Kern Pgtbl := do
  match ← kalloc t with
  | none => throw "kerneltrap"
  | some mem =>
    let (_, pt) ← mappages t pt 0 PGSIZE mem ⟨true, true, true, true⟩
    return pt

def userinit : Call Unit := do
  let p ← allocproc im
  modify fun s => { s with initproc := p }
  match p with
  | none => throw "kerneltrap"
  | some p => do
    let s ← get
    match (s.proc p).pagetable with
    | none => throw "kerneltrap"
    | some pt => do
      let pt ← onKmem (uvmfirst (s.proc p).pid pt)
      setProc p fun x => { x with pagetable := some pt, sz := PGSIZE }
      setProc p fun x => { x with state := .runnable }

end Xv6.Mem
