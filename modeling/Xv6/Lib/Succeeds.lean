/-
# `Xv6.Lib.Succeeds` — total correctness of programs with a state and errors

A kernel function that may panic is a program in `StateT σ (Except ε)`.
`Succeeds m s Q` says that `m` started in `s` does not fail and ends with `Q`: the
rules below never let an error through, so a specification proved with them is
also a proof that no panic is reached.

`Yields m s Q` leaves the errors out: it is for what a program does to a part of the
state, where that it does not fail is known from elsewhere.  It often is: a program on
a large state that does what a smaller one does, and more (`Projects`), fails only if
the smaller one does.
-/
import Mathlib.Logic.Basic

namespace Machine

variable {ε σ τ α β : Type} {a : α} {g : σ → σ} {m : StateT σ (Except ε) α} {Q : α → σ → Prop}

/-- `m` does not fail from `s`, and its result and final state satisfy `Q`. -/
def Succeeds (m : StateT σ (Except ε) α) (s : σ) (Q : α → σ → Prop) : Prop :=
  ∃ a t, m s = .ok (a, t) ∧ Q a t

namespace Succeeds

variable {m : StateT σ (Except ε) α} {f : α → StateT σ (Except ε) β} {s : σ}
  {Q Q' : α → σ → Prop} {R : β → σ → Prop}

theorem pure (h : Q a s) : Succeeds (Pure.pure a : StateT σ (Except ε) α) s Q :=
  ⟨a, s, rfl, h⟩

theorem bind (h : Succeeds m s fun a t => Succeeds (f a) t R) : Succeeds (m >>= f) s R := by
  obtain ⟨a, t, hm, b, u, hf, hR⟩ := h
  refine ⟨b, u, ?_, hR⟩
  show (m s >>= fun x => f x.1 x.2) = _
  rwa [hm]

theorem mono (h : Succeeds m s Q) (hQ : ∀ a t, Q a t → Q' a t) : Succeeds m s Q' := by
  obtain ⟨a, t, hm, ha⟩ := h
  exact ⟨a, t, hm, hQ a t ha⟩

theorem seq (h : Succeeds m s Q) (hf : ∀ a t, Q a t → Succeeds (f a) t R) : Succeeds (m >>= f) s R :=
  bind (h.mono hf)

/-- Code that starts by reading the state. -/
theorem read {f : σ → StateT σ (Except ε) β} (h : Succeeds (f s) s R) :
    Succeeds (MonadState.get >>= f) s R := h

/-- Code that starts by changing the state. -/
theorem write {f : PUnit → StateT σ (Except ε) β} (h : Succeeds (f ⟨⟩) (g s) R) :
    Succeeds (modify g >>= f) s R := h

theorem update {Q : PUnit → σ → Prop} (h : Q ⟨⟩ (g s)) :
    Succeeds (modify g : StateT σ (Except ε) PUnit) s Q := ⟨⟨⟩, g s, rfl, h⟩

/-- A loop over a list; the invariant is about the rest of the list. -/
theorem forM {g : α → StateT σ (Except ε) PUnit} {I : List α → σ → Prop}
    (h : ∀ a as s, I (a :: as) s → Succeeds (g a) s fun _ t => I as t) :
    ∀ (as : List α) {s : σ}, I as s → Succeeds (as.forM g) s fun _ t => I [] t
  | [], _, hs => Succeeds.pure hs
  | a :: as, s, hs => (h a as s hs).seq fun _ _ => Succeeds.forM h as

/-- Two specifications of one program. -/
theorem and (h : Succeeds m s Q) (h' : Succeeds m s Q') : Succeeds m s fun a t => Q a t ∧ Q' a t := by
  obtain ⟨a, t, hm, hQ⟩ := h
  obtain ⟨b, u, hm', hQ'⟩ := h'
  rw [hm] at hm'
  cases hm'
  exact ⟨a, t, hm, hQ, hQ'⟩

/-- What is proved of a program is true of the run it has. -/
theorem result (h : Succeeds m s Q) {t : σ} (hm : m s = .ok (a, t)) : Q a t := by
  obtain ⟨b, u, hb, hQ⟩ := h
  rw [hm] at hb
  cases hb
  exact hQ

end Succeeds

/-- If `m` does not fail from `s`, its result and final state satisfy `Q`. -/
def Yields (m : StateT σ (Except ε) α) (s : σ) (Q : α → σ → Prop) : Prop :=
  ∀ a t, m s = .ok (a, t) → Q a t

theorem Succeeds.yields {s : σ} (h : Succeeds m s Q) : Yields m s Q := fun _ _ hm => h.result hm

theorem Succeeds.and_yields {s : σ} {R : α → σ → Prop}
    (h : Succeeds m s Q) (h' : Yields m s R) : Succeeds m s fun a t => Q a t ∧ R a t := by
  obtain ⟨a, t, hm, hQ⟩ := h
  exact ⟨a, t, hm, hQ, h' a t hm⟩

namespace Yields

variable {m : StateT σ (Except ε) α} {f : α → StateT σ (Except ε) β} {s : σ}
  {Q Q' : α → σ → Prop} {R : β → σ → Prop}

theorem pure (h : Q a s) : Yields (Pure.pure a : StateT σ (Except ε) α) s Q := by
  intro b t hb
  cases hb
  exact h

theorem seq (h : Yields m s Q) (hf : ∀ a t, Q a t → Yields (f a) t R) : Yields (m >>= f) s R := by
  intro b u hb
  have hb : (m s >>= fun x => f x.1 x.2) = .ok (b, u) := hb
  cases hm : m s with
  | error e =>
    rw [hm] at hb
    cases hb
  | ok x =>
    rw [hm] at hb
    exact hf x.1 x.2 (h x.1 x.2 hm) b u hb

theorem write {f : PUnit → StateT σ (Except ε) β} (h : Yields (f ⟨⟩) (g s) R) :
    Yields (modify g >>= f) s R := h

end Yields

/-- Seen through `f`, what `m` does to its state is what `n` does. -/
def Projects (f : σ → τ) (m : StateT σ (Except ε) α) (n : StateT τ (Except ε) α) : Prop :=
  ∀ s, (m s).map (fun x => (x.1, f x.2)) = n (f s)

namespace Projects

variable {f : σ → τ} {m : StateT σ (Except ε) α} {n : StateT τ (Except ε) α}
  {g : α → StateT σ (Except ε) β} {k : α → StateT τ (Except ε) β}

theorem pure (a : α) : Projects f (Pure.pure a : StateT σ (Except ε) α) (Pure.pure a) := fun _ => rfl

theorem bind (h : Projects f m n) (hg : ∀ a, Projects f (g a) (k a)) :
    Projects f (m >>= g) (n >>= k) := by
  intro s
  show (m s >>= fun x => g x.1 x.2).map _ = (n (f s) >>= fun x => k x.1 x.2)
  rw [← h]
  cases m s with
  | error e => rfl
  | ok x => exact hg x.1 x.2

/-- A change of the state that does not show. -/
theorem write {u : σ → σ} {g : PUnit → StateT σ (Except ε) β} {k : StateT τ (Except ε) β}
    (hu : ∀ s, f (u s) = f s) (hg : Projects f (g ⟨⟩) k) : Projects f (modify u >>= g) k := by
  intro s
  have := hg (u s)
  rwa [hu] at this

theorem succeeds (h : Projects f m n) {s : σ} {Q : α → τ → Prop} (hn : Succeeds n (f s) Q) :
    Succeeds m s fun a t => Q a (f t) := by
  obtain ⟨a, t, hn, hQ⟩ := hn
  have h := h s
  rw [hn] at h
  cases hm : m s with
  | error e =>
    rw [hm] at h
    cases h
  | ok x =>
    rw [hm] at h
    cases h
    exact ⟨x.1, x.2, hm, hQ⟩

end Projects

end Machine
