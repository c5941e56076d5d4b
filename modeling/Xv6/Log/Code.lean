/-
# `Xv6.Log.Code` — `kernel/bio.c` and `kernel/log.c` as programs, and the machine

The functions of the two files, as programs over the operations of
`Xv6.Log.State`.  A system call is a program over the calls the rest of the
kernel makes (`bread`, `log_write`, `brelse`, `begin_op`, `end_op`, access to a
buffer's data); `compile` puts the functions here in their place.

The machine interleaves any number of processes.  A process that has nothing to
do may start any system call once the kernel has booted; at any moment the
machine may crash, which leaves the disk and nothing else; after a crash one
process runs `recover_from_log` before anybody else runs.
-/
import Xv6.Lib.Run
import Xv6.Log.State

namespace Xv6.Log

open Machine Function

section
variable {N : Nat} {X : Ext N}

/-! ## The operations, each as a program -/

namespace Prim

variable (i : BufPtr)

abbrev call (o : Op X.Op) : Prog (sig X) o.Res := Prog.call (S := sig X) o

abbrev bget (b : BlockNo) : Prog (sig X) BufPtr := call (.bget b)
abbrev acquiresleep : Prog (sig X) Unit := call (.acquiresleep i)
abbrev valid : Prog (sig X) Bool := call (.valid i)
abbrev diskRead : Prog (sig X) Unit := call (.diskRead i)
abbrev getData : Prog (sig X) Block := call (.getData i)
abbrev setData (d : Block) : Prog (sig X) Unit := call (.setData i d)
abbrev diskWrite : Prog (sig X) Unit := call (.diskWrite i)
abbrev releasesleep : Prog (sig X) Unit := call (.releasesleep i)
abbrev deref : Prog (sig X) Unit := call (.deref i)
abbrev bunpin : Prog (sig X) Unit := call (.bunpin i)
abbrev beginOp : Prog (sig X) Unit := call .beginOp
abbrev logWrite : Prog (sig X) Unit := call (.logWrite i)
abbrev endOp : Prog (sig X) Bool := call .endOp
abbrev endCommit : Prog (sig X) Unit := call .endCommit
abbrev getLh : Prog (sig X) (List BlockNo) := call .getLh
abbrev setLh (lh : List BlockNo) : Prog (sig X) Unit := call (.setLh lh)
abbrev boot : Prog (sig X) Unit := call .boot
abbrev panic (msg : String) : Prog (sig X) Empty := call (.panic msg)
abbrev ext (e : X.Op) : Prog (sig X) (X.Res e) := call (.ext e)

end Prim

/-! ## bio.c -/

def bread (b : BlockNo) : Prog (sig X) BufPtr := do
  let i ← Prim.bget b
  Prim.acquiresleep i
  let v ← Prim.valid i
  if v then return i
  Prim.diskRead i
  return i

def bwrite (i : BufPtr) : Prog (sig X) Unit := Prim.diskWrite i

def brelse (i : BufPtr) : Prog (sig X) Unit := do
  Prim.releasesleep i
  Prim.deref i

/-- `memmove(to->data, from->data, BSIZE)`. -/
def copyData (dst src : BufPtr) : Prog (sig X) Unit := do
  let d ← Prim.getData src
  Prim.setData dst d

/-! ## log.c

`log.lh` is read once before each loop over it: in these loops only the process
that runs them writes it. -/

def installFrom (L : Layout) (recovering : Bool) : Nat → List BlockNo → Prog (sig X) Unit
  | _, [] => return ()
  | tail, b :: bs => do
    let lbuf ← bread (L.at (tail + 1))
    let dbuf ← bread b
    copyData dbuf lbuf
    bwrite dbuf
    if recovering = false then
      Prim.bunpin dbuf
    brelse lbuf
    brelse dbuf
    installFrom L recovering (tail + 1) bs

variable (L : Layout)

def installTrans (recovering : Bool) : Prog (sig X) Unit := do
  let lh ← Prim.getLh
  installFrom L recovering 0 lh

/-- A header with more than `LOGSIZE` blocks would run over `log.lh.block`. -/
def readHead : Prog (sig X) Unit := do
  let i ← bread (L.at 0)
  let d ← Prim.getData i
  if LOGSIZE < hdrN d then
    let e ← Prim.panic "read_head: log.lh.block overrun"
    e.elim
  else
    Prim.setLh (hdrBlocks d)
    brelse i

def writeHead : Prog (sig X) Unit := do
  let i ← bread (L.at 0)
  let d ← Prim.getData i
  let lh ← Prim.getLh
  Prim.setData i (putHdr d lh)
  bwrite i
  brelse i

def recoverFromLog : Prog (sig X) Unit := do
  readHead L
  installTrans L true
  Prim.setLh []
  writeHead L

def writeLogFrom (L : Layout) : Nat → List BlockNo → Prog (sig X) Unit
  | _, [] => return ()
  | tail, b :: bs => do
    let toBuf ← bread (L.at (tail + 1))
    let fromBuf ← bread b
    copyData toBuf fromBuf
    bwrite toBuf
    brelse fromBuf
    brelse toBuf
    writeLogFrom L (tail + 1) bs

def writeLog : Prog (sig X) Unit := do
  let lh ← Prim.getLh
  writeLogFrom L 0 lh

def commit : Prog (sig X) Unit := do
  let lh ← Prim.getLh
  if 0 < lh.length then
    writeLog L
    writeHead L
    installTrans L false
    Prim.setLh []
    writeHead L

/-- `end_op`. -/
def endOpCode : Prog (sig X) Unit := do
  let doCommit ← Prim.endOp
  if doCommit then
    commit L
    Prim.endCommit

/-- What the first process runs after a boot, before anybody else may start:
`fsinit` calls `initlog`. -/
def initlog : Prog (sig X) Unit := do
  recoverFromLog L
  Prim.boot

/-! ## System calls -/

/-- What the rest of the kernel calls. -/
inductive Call (E : Type)
  | bread (b : BlockNo)
  | getData (i : BufPtr)
  | setData (i : BufPtr) (d : Block)
  | logWrite (i : BufPtr)
  | brelse (i : BufPtr)
  | beginOp
  | endOp
  | panic (msg : String)
  | ext (e : E)

def Call.Res : Call X.Op → Type
  | .bread _ => BufPtr
  | .getData _ => Block
  | .panic _ => Empty
  | .ext e => X.Res e
  | _ => Unit

abbrev callSig (X : Ext N) : Sig := ⟨Call X.Op, Call.Res⟩

/-- The code behind a call. -/
def Call.code (L : Layout) : (c : Call X.Op) → Prog (sig X) (Call.Res c)
  | .bread b => Log.bread b
  | .getData i => Prim.getData i
  | .setData i d => Prim.setData i d
  | .logWrite i => Prim.logWrite i
  | .brelse i => Log.brelse i
  | .beginOp => Prim.beginOp
  | .endOp => endOpCode L
  | .panic msg => Prim.panic msg
  | .ext e => Prim.ext e

abbrev SysCall (X : Ext N) := Prog (callSig X) Unit

def compile (c : SysCall X) : Prog (sig X) Unit := c.lower (Call.code L)

/-! ## The machine -/

/-- The shared state, and what each process has left to do. -/
structure State (X : Ext N) where
  sys : Sys N X.Mem
  prog : Fin N → Prog (sig X) Unit

inductive Act (X : Ext N)
  | run (p : Fin N)
  | start (p : Fin N) (c : SysCall X)
  | boot (p : Fin N)
  | crash

/-- The cache after `binit`, the log before `initlog`, on a disk as it is. -/
def afterCrash (X : Ext N) (s : Sys N X.Mem) : Sys N X.Mem where
  disk := s.disk
  buf := fun _ => ⟨false, 0, 0, none, 0, Bytes.zero _, false⟩
  -- `binit` puts each buffer at the front of the list
  order := (List.finRange NBUF).reverse
  outstanding := 0
  committing := false
  lh := []
  panicked := none
  booted := false
  asleep := fun _ => false
  mem := X.boot
  refs := fun _ => []
  pins := []
  op := fun _ => none
  nextop := s.nextop
  owner := none
  pending := []
  committed := s.committed
  lost := s.lost ++ s.pending
  group := []

/-- The process has returned from its last system call. -/
def idle : Prog (sig X) Unit → Bool
  | .ret _ => true
  | .op _ _ => false

/-- Process `p` performs its next operation. -/
def runProc (L : Layout) (s : State X) (p : Fin N) : Option (State X) :=
  match s.prog p with
  | .ret _ => none
  | .op o k =>
    match perform L X p o s.sys with
    | none => none
    | some (none, t) => some ⟨t, s.prog⟩
    | some (some r, t) => some ⟨t, update s.prog p (k r)⟩

def step (L : Layout) (s : State X) : Act X → Option (State X)
  | .run p => runProc L s p
  | .start p c =>
    if s.sys.booted ∧ idle (s.prog p) ∧ s.sys.panicked = none then
      some { s with prog := update s.prog p (compile L c) }
    else none
  | .boot p =>
    if s.sys.booted = false ∧ s.sys.owner = none ∧ s.sys.panicked = none then
      some ⟨{ s.sys with owner := some p }, update s.prog p (initlog L)⟩
    else none
  | .crash => some ⟨afterCrash X s.sys, fun _ => .ret ()⟩

/-- The operation a process performs in a step. -/
theorem step_run {L : Layout} {s t : State X} {p : Fin N} (hs : step L s (.run p) = some t) :
    ∃ o k a, s.prog p = .op o k ∧ perform L X p o s.sys = some (a, t.sys) := by
  simp only [step, runProc] at hs
  cases hp : s.prog p with
  | ret x => rw [hp] at hs; cases hs
  | op o k =>
    rw [hp] at hs
    simp only at hs
    split at hs
    · cases hs
    · rename_i hper; cases hs; exact ⟨o, k, _, rfl, hper⟩
    · rename_i hper; cases hs; exact ⟨o, k, _, rfl, hper⟩

theorem runThread_of_runProc {R : Rules (Fin N) (Sys N X.Mem) (sig X)} {L : Layout} {s t : State X}
    {p : Fin N}
    (hR : ∀ o k, s.prog p = .op o k → R.perform p o s.sys = perform L X p o s.sys)
    (hs : runProc L s p = some t) : R.runThread s.sys s.prog p = some (t.sys, t.prog) := by
  simp only [runProc] at hs
  cases hp : s.prog p with
  | ret a => rw [hp] at hs; cases hs
  | op o k =>
    simp only [Rules.runThread, hp, hR o k hp]
    rw [hp] at hs
    simp only at hs
    revert hs
    cases perform L X p o s.sys with
    | none => intro hs; cases hs
    | some x =>
      obtain ⟨r, u⟩ := x
      cases r with
      | none | some r => intro hs; cases hs; rfl

/-- A machine that has just been switched on, its disk `d` as `mkfs` left it or
as a clean shutdown did: no transaction in the log. -/
structure Init (L : Layout) (d : BlockNo → Block) (s : State X) : Prop where
  disk : s.sys.disk = d
  clean : hdrN (d (L.at 0)) = 0
  fresh : ∃ s', s.sys = afterCrash X s'
  committed : s.sys.committed = []
  lost : s.sys.lost = []
  prog : ∀ p, s.prog p = .ret ()

end

/-! ## The machine alone -/

/-- No other kernel memory. -/
def Ext.none (N : Nat) : Ext N := ⟨Unit, (), Empty, Empty.elim, fun _ e => e.elim⟩

/-- A machine switched on with a disk of zeros. -/
def switchedOn (N : Nat) : State (Ext.none N) where
  sys := {
    disk := fun _ => Bytes.zero _
    buf := fun _ => ⟨false, 0, 0, Option.none, 0, Bytes.zero _, false⟩
    order := (List.finRange NBUF).reverse
    outstanding := 0
    committing := false
    lh := []
    panicked := Option.none
    booted := false
    asleep := fun _ => false
    mem := ()
    refs := fun _ => []
    pins := []
    op := fun _ => Option.none
    nextop := 0
    owner := Option.none
    pending := []
    committed := []
    lost := []
    group := [] }
  prog := fun _ => .ret ()

theorem init_switchedOn {N : Nat} (L : Layout) : Init L (fun _ => Bytes.zero _) (switchedOn N) where
  disk := rfl
  clean := by decide
  fresh := ⟨(switchedOn N).sys, rfl⟩
  committed := rfl
  lost := rfl
  prog := fun _ => rfl

end Xv6.Log
