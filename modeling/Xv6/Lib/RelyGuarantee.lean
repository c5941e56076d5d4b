/-
# `Xv6.Lib.RelyGuarantee` — reasoning about one program among many

Threads run programs over a shared state, one operation at a time.  `perform p o
s` is what operation `o` of thread `p` does at `s`: `none` while it is not
enabled, `some (some r, t)` when it answers `r`, `some (none, t)` when it goes to
sleep and will be tried again.

A thread is verified on its own.  It relies on the others to change the state by
`Rely p` only, and owes `Pre p o` before each of its operations; an operation
performed under its `Pre` keeps the global invariant `J` and is a `Rely` step for
everybody else (`Obeys`).  `WP p m Q s` says that the program `m`, run by `p` from
`s` with the others running in between, meets every `Pre` and ends in `Q`.

**Proved here.**

  * composition of programs (`WP.bind`)
  * what is verified thread by thread holds in the interleaving (`safe_runThread`)
  * every operation reached meets its `Pre` (`Safe.pre`)
-/
import Xv6.Lib.Prog

namespace Machine

open Function

variable {P σ : Type} {S : Sig} {α β : Type}

/-- The rules of one system: invariant, rely, obligations, operations. -/
structure Rules (P σ : Type) (S : Sig) where
  J : σ → Prop
  Rely : P → σ → σ → Prop
  Pre : P → S.Op → σ → Prop
  perform : P → (o : S.Op) → σ → Option (Option (S.Res o) × σ)

namespace Rules

variable (R : Rules P σ S)

/-- An operation performed under its obligation keeps the invariant, and nobody
else is disturbed; one that only goes to sleep does not disturb its own thread
either. -/
structure Obeys : Prop where
  refl : ∀ p s, R.Rely p s s
  trans : ∀ p s t u, R.Rely p s t → R.Rely p t u → R.Rely p s u
  keeps : ∀ p o s a t, R.J s → R.Pre p o s → R.perform p o s = some (a, t) →
    R.J t ∧ ∀ q, q ≠ p ∨ a = none → R.Rely q s t

/-- An assertion of thread `p` that the other threads cannot make false. -/
def Stable (p : P) (A : σ → Prop) : Prop := ∀ s t, R.J s → R.J t → R.Rely p s t → A s → A t

def WP (p : P) : Prog S α → (α → σ → Prop) → σ → Prop
  | .ret a, Q, s => Q a s
  | .op o k, Q, s =>
    ∀ s', R.J s' → R.Rely p s s' → R.Pre p o s' ∧
      ∀ r t, R.perform p o s' = some (some r, t) → R.J t → WP p (k r) Q t

variable {R} {p : P} {s t : σ} {Q Q' : α → σ → Prop} {m : Prog S α}

theorem WP.bind {f : α → Prog S β} {Q : β → σ → Prop}
    (h : R.WP p m (fun a t => R.WP p (f a) Q t) s) : R.WP p (m.bind f) Q s := by
  induction m generalizing s with
  | ret a => exact h
  | op o k ih =>
    intro s' hJ hr
    obtain ⟨hpre, hk⟩ := h s' hJ hr
    exact ⟨hpre, fun r t hp hJt => ih r (hk r t hp hJt)⟩

/-- What the others do in between is covered. -/
theorem WP.stable (hR : R.Obeys) (hQ : ∀ a, R.Stable p (Q a)) (hJ : R.J s)
    (hJt : R.J t) (hr : R.Rely p s t) (h : R.WP p m Q s) : R.WP p m Q t := by
  cases m with
  | ret a => exact hQ a s t hJ hJt hr h
  | op o k => exact fun s' hJ' hr' => h s' hJ' (hR.trans p s t s' hr hr')

/-! ## The interleaving -/

/-- The invariant holds and every thread is verified; `Idle p` is what a thread
that has returned leaves behind. -/
structure Safe (R : Rules P σ S) (Idle : P → σ → Prop) (s : σ) (prog : P → Prog S Unit) :
    Prop where
  inv : R.J s
  wp : ∀ p, R.WP p (prog p) (fun _ => Idle p) s

variable {Idle : P → σ → Prop} {prog prog' : P → Prog S Unit}

theorem Safe.pre (h : Safe R Idle s prog) (hR : R.Obeys) {o : S.Op}
    {k : S.Res o → Prog S Unit} (hp : prog p = .op o k) : R.Pre p o s := by
  have := h.wp p
  rw [hp] at this
  exact (this s h.inv (hR.refl p s)).1

section
variable [DecidableEq P]

/-- Thread `p` performs its next operation. -/
def runThread (R : Rules P σ S) (s : σ) (prog : P → Prog S Unit) (p : P) :
    Option (σ × (P → Prog S Unit)) :=
  match prog p with
  | .ret _ => none
  | .op o k =>
    match R.perform p o s with
    | none => none
    | some (none, t) => some (t, prog)
    | some (some r, t) => some (t, update prog p (k r))

/-- One operation of one thread keeps every thread verified. -/
theorem safe_runThread (hR : R.Obeys) (hIdle : ∀ p, R.Stable p (Idle p))
    (h : Safe R Idle s prog) (hrun : runThread R s prog p = some (t, prog')) :
    Safe R Idle t prog' := by
  unfold runThread at hrun
  cases hp : prog p with
  | ret a => simp [hp] at hrun
  | op o k =>
    simp only [hp] at hrun
    have hpre := h.pre hR hp
    cases hper : R.perform p o s with
    | none => simp [hper] at hrun
    | some x =>
      obtain ⟨a, t'⟩ := x
      obtain ⟨hJ, hrel⟩ := hR.keeps p o s a t' h.inv hpre hper
      cases a with
      | none =>
        simp only [hper, Option.some.injEq, Prod.mk.injEq] at hrun
        obtain ⟨rfl, rfl⟩ := hrun
        exact ⟨hJ, fun q =>
          (h.wp q).stable hR (fun _ => hIdle q) h.inv hJ (hrel q (.inr rfl))⟩
      | some r =>
        simp only [hper, Option.some.injEq, Prod.mk.injEq] at hrun
        obtain ⟨rfl, rfl⟩ := hrun
        refine ⟨hJ, fun q => ?_⟩
        by_cases hq : q = p
        · subst hq
          have hw := h.wp q
          rw [hp] at hw
          rw [update_self]
          exact (hw s h.inv (hR.refl q s)).2 r t' hper hJ
        · rw [update_of_ne hq]
          exact (h.wp q).stable hR (fun _ => hIdle q) h.inv hJ (hrel q (.inl hq))

/-- A thread is given a new program. -/
theorem Safe.start (h : Safe R Idle s prog) {m : Prog S Unit}
    (hm : R.WP p m (fun _ => Idle p) s) : Safe R Idle s (update prog p m) := by
  refine ⟨h.inv, fun q => ?_⟩
  by_cases hq : q = p
  · subst hq; rwa [update_self]
  · rw [update_of_ne hq]; exact h.wp q

end

end Rules

end Machine
