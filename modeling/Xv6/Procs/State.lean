/-
# `Xv6.Procs.State` — the states of a process

`enum procstate` of `kernel/proc.h`, shared by every machine of this
development in which processes sleep, run or exit.
-/
import Mathlib.Data.Fintype.Basic

namespace Xv6

/-- `enum procstate`. -/
inductive ProcState
  | unused
  | used
  | sleeping
  | runnable
  | running
  | zombie
  deriving DecidableEq, Repr

end Xv6
