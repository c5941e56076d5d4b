/-
# `Xv6.Lib.Prog` — programs as trees of operations

A program either returns a value or performs an operation and goes on with what
the operation answered.  What the operations do is left open: a signature says
only which there are and what type each answers.  One text of a program can so
be given several meanings (a step of an interleaving machine, a sequential
function), and a program written over calls can be lowered to one over the
operations that implement them (`Prog.lower`).
-/
import Mathlib.Logic.Function.Basic

namespace Machine

/-- Operations, and the type of each one's answer. -/
structure Sig where
  Op : Type
  Res : Op → Type

inductive Prog (S : Sig) (α : Type) : Type
  | ret (a : α)
  | op (o : S.Op) (k : S.Res o → Prog S α)

namespace Prog

variable {S T : Sig} {α β γ : Type}

def bind : Prog S α → (α → Prog S β) → Prog S β
  | .ret a, f => f a
  | .op o k, f => .op o fun r => (k r).bind f

/-- The program that performs one operation and returns its answer. -/
def call (o : S.Op) : Prog S (S.Res o) := .op o .ret

instance : Monad (Prog S) where
  pure := .ret
  bind := bind

@[simp] theorem ret_bind (a : α) (f : α → Prog S β) : bind (.ret a) f = f a := rfl

@[simp] theorem op_bind (o : S.Op) (k : S.Res o → Prog S α) (f : α → Prog S β) :
    bind (.op o k) f = .op o fun r => (k r).bind f := rfl

@[simp] theorem pure_def (a : α) : (pure a : Prog S α) = .ret a := rfl

@[simp] theorem bind_def (m : Prog S α) (f : α → Prog S β) : (m >>= f) = m.bind f := rfl

theorem bind_assoc (m : Prog S α) (f : α → Prog S β) (g : β → Prog S γ) :
    (m.bind f).bind g = m.bind fun a => (f a).bind g := by
  induction m with
  | ret a => rfl
  | op o k ih => simp only [op_bind, ih]

theorem ite_bind (c : Prop) [Decidable c] (m m' : Prog S α) (f : α → Prog S β) :
    (if c then m else m').bind f = if c then m.bind f else m'.bind f := by
  split <;> rfl

/-- Replace every operation by a program that implements it. -/
def lower (f : (o : S.Op) → Prog T (S.Res o)) : Prog S α → Prog T α
  | .ret a => .ret a
  | .op o k => (f o).bind fun r => (k r).lower f

end Prog

end Machine
