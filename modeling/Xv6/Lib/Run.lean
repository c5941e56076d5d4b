/-
# `Xv6.Lib.Run` — runs of a machine given by an executable step function

A machine is a set of initial states and a partial step function
`step : σ → α → Option σ`: `step s a = none` says that the action `a` is not
enabled at `s` (a lock is held, a process is asleep), `some t` is the state it
leads to.  All nondeterminism is in the choice of actions, so a run is fixed by
the list of its actions and can be evaluated.

`Run` keeps the history: every state the run went through, with the action
taken there.  That is what a statement about ALL states of a run, or about all
of its steps, quantifies over.

**Proved here.**

  * invariant rule, unconditional and under a condition on the steps (`Run.inv`,
    `Run.inv_of_steps`)
  * every state of a run ends a run of its own (`Run.of_mem`)
  * a run cut at one of its steps (`Run.split`)
  * evaluating a list of actions gives a run (`exec_run`, `run_of_exec`)
-/
import Mathlib.Algebra.GroupWithZero.Nat
import Mathlib.Data.List.Basic
import Mathlib.Data.List.Induction

namespace Machine

open List

universe u v

variable {σ : Type u} {α : Type v}

/-! Concrete runs have one or two parties; their numbers are read in one way everywhere. -/

scoped instance neZero_one : NeZero 1 := ⟨by decide⟩

scoped instance neZero_two : NeZero 2 := ⟨by decide⟩

/-- `Run init step h s`: a run that starts in an initial state and ends in `s`.
`h` lists, oldest first, the states passed through and the action taken at each. -/
inductive Run (init : σ → Prop) (step : σ → α → Option σ) : List (σ × α) → σ → Prop
  | init {s : σ} : init s → Run init step [] s
  | step {h : List (σ × α)} {s t : σ} {a : α} :
      Run init step h s → step s a = some t → Run init step (h ++ [(s, a)]) t

/-- Fold a list of actions over a state; `none` as soon as one is not enabled. -/
def exec (step : σ → α → Option σ) : σ → List α → Option σ
  | s, [] => some s
  | s, a :: as => (step s a).bind fun t => exec step t as

/-- The history of that evaluation. -/
def hist (step : σ → α → Option σ) : σ → List α → List (σ × α)
  | _, [] => []
  | s, a :: as =>
    (s, a) :: match step s a with
      | some t => hist step t as
      | none => []

section
variable {init : σ → Prop} {step : σ → α → Option σ} {I : σ → Prop} {C : σ → α → Prop} {s₀ : σ}

/-- The invariant rule, for runs whose steps all meet the condition `C`. -/
theorem Run.inv_of_steps (h0 : ∀ s, init s → I s)
    (hs : ∀ s a t, I s → C s a → step s a = some t → I t)
    {h : List (σ × α)} {s : σ} (r : Run init step h s) (hok : ∀ x ∈ h, C x.1 x.2) : I s := by
  induction r with
  | init hi => exact h0 _ hi
  | @step h s t a _ hst ih =>
    have hI : I s := ih fun x hx => hok x (mem_append_left _ hx)
    have ha : C s a := hok (s, a) (by simp)
    exact hs s a t hI ha hst

/-- The invariant rule. -/
theorem Run.inv (h0 : ∀ s, init s → I s) (hs : ∀ s a t, I s → step s a = some t → I t)
    {h : List (σ × α)} {s : σ} (r : Run init step h s) : I s :=
  r.inv_of_steps (C := fun _ _ => True) h0 (fun s a t hI _ => hs s a t hI)
    (fun _ _ => trivial)

/-- Every state a run passed through is the end of a run, whose history is an
initial part of the whole one. -/
theorem Run.of_mem {h : List (σ × α)} {s : σ} (r : Run init step h s) :
    ∀ x ∈ h, ∃ h', Run init step h' x.1 ∧ h' ⊆ h := by
  induction r with
  | init _ => exact nofun
  | @step h s t a r _ ih =>
    intro x hx
    rcases mem_append.mp hx with hx | hx
    · obtain ⟨h', r', hsub⟩ := ih x hx
      exact ⟨h', r', fun y hy => mem_append_left _ (hsub hy)⟩
    · have : x = (s, a) := by simpa using hx
      subst this
      exact ⟨h, r, fun y hy => mem_append_left _ hy⟩

/-- A property that holds at the end of every run holds in every state of one. -/
theorem Run.forall_states {P : σ → Prop}
    (hP : ∀ h s, Run init step h s → (∀ x ∈ h, C x.1 x.2) → P s)
    {h : List (σ × α)} {s : σ} (r : Run init step h s)
    (hok : ∀ x ∈ h, C x.1 x.2) : (∀ x ∈ h, P x.1) ∧ P s := by
  refine ⟨fun x hx => ?_, hP h s r hok⟩
  obtain ⟨h', r', hsub⟩ := r.of_mem x hx
  exact hP h' x.1 r' fun y hy => hok y (hsub hy)

/-- The last step of a run. -/
theorem Run.snoc_inv {h : List (σ × α)} {x : σ × α} {t : σ} (r : Run init step (h ++ [x]) t) :
    Run init step h x.1 ∧ step x.1 x.2 = some t := by
  generalize hl : h ++ [x] = l at r
  cases r with
  | init _ => exact absurd hl (by simp)
  | step r hst =>
    obtain ⟨rfl, hx⟩ := append_inj' hl rfl
    obtain rfl := List.cons.inj hx |>.1
    exact ⟨r, hst⟩

/-- A run cut at one of its steps: what follows is a run from the state after it. -/
theorem Run.split {h1 : List (σ × α)} {u : σ} {a : α} (h2 : List (σ × α)) {s : σ}
    (r : Run init step (h1 ++ (u, a) :: h2) s) :
    Run init step h1 u ∧ ∃ v, step u a = some v ∧ Run (· = v) step h2 s := by
  induction h2 using List.reverseRecOn generalizing s with
  | nil =>
    obtain ⟨r1, hst⟩ := r.snoc_inv
    exact ⟨r1, s, hst, .init rfl⟩
  | append_singleton h2 x ih =>
    have r' : Run init step ((h1 ++ (u, a) :: h2) ++ [x]) s := by simpa using r
    obtain ⟨r1, hst⟩ := r'.snoc_inv
    obtain ⟨hu, v, hv, r2⟩ := ih r1
    exact ⟨hu, v, hv, r2.step hst⟩

/-- What happens as often as it is begun: if a step changes `v` by one for each
beginning and each end, the ends of a run are its beginnings up to `v`. -/
theorem Run.countP_balance {b e : σ × α → Bool} {v : σ → Nat} (h0 : ∀ s, init s → v s = 0)
    (hs : ∀ h s a t, Run init step h s → step s a = some t →
      (b (s, a)).toNat + v s = (e (s, a)).toNat + v t)
    {h : List (σ × α)} {s : σ} (r : Run init step h s) : h.countP b = h.countP e + v s := by
  induction r with
  | init hi => simp [h0 _ hi]
  | @step h s t a r hst ih =>
    have := hs h s a t r hst
    have hone : ∀ c : σ × α → Bool, [(s, a)].countP c = (c (s, a)).toNat := fun c => by
      cases hc : c (s, a) <;> simp [hc]
    rw [countP_append, countP_append, hone, hone]
    omega

/-- A second machine that follows `step` under `f` reaches the image of the state a run
has reached. -/
theorem Run.exec_image {τ : Type*} {step' : τ → α → Option τ} {f : σ → τ} (h0 : I s₀)
    (hs : ∀ s a t, I s → C s a → step s a = some t → I t ∧ step' (f s) a = some (f t))
    {h : List (σ × α)} {s : σ} (r : Run (· = s₀) step h s) (hok : ∀ x ∈ h, C x.1 x.2) :
    I s ∧ exec step' (f s₀) (h.map Prod.snd) = some (f s) := by
  have happ : ∀ (as : List α) (u : τ) (a : α),
      exec step' u (as ++ [a]) = (exec step' u as).bind (step' · a) := by
    intro as
    induction as with
    | nil => intro u a; cases h : step' u a <;> simp [exec, h]
    | cons b as ih => intro u a; cases h : step' u b <;> simp [exec, h, ih]
  induction r with
  | init hi => exact ⟨hi ▸ h0, by rw [hi]; rfl⟩
  | @step h s t a r hst ih =>
    obtain ⟨hI, he⟩ := ih fun x hx => hok x (mem_append_left _ hx)
    obtain ⟨hI', hst'⟩ := hs s a t hI (hok (s, a) (by simp)) hst
    refine ⟨hI', ?_⟩
    rwa [map_append, map_singleton, happ, he]

/-- Evaluating a list of actions at the end of a run extends the run. -/
theorem exec_run : ∀ (as : List α) {h : List (σ × α)} {s t : σ},
    Run init step h s → exec step s as = some t → Run init step (h ++ hist step s as) t
  | [], h, s, t, r, he => by
    obtain rfl : s = t := by simpa [exec] using he
    simpa [hist] using r
  | a :: as, h, s, t, r, he => by
    obtain ⟨u, hu, he⟩ := Option.bind_eq_some_iff.mp he
    have := exec_run as (r.step hu) he
    simpa [hist, hu] using this

/-- Evaluating a list of actions from an initial state, and then `f`. -/
theorem run_of_exec {β : Type*} {as : List α} (hi : init s₀) {f : σ → β} {v : β}
    (he : (exec step s₀ as).map f = some v) : ∃ s, Run init step (hist step s₀ as) s ∧ f s = v := by
  obtain ⟨s, hs, hv⟩ := Option.map_eq_some_iff.mp he
  exact ⟨s, exec_run as (Run.init hi) hs, hv⟩

end

theorem mem_hist {step : σ → α → Option σ} : ∀ {as : List α} {s : σ} {x : σ × α},
    x ∈ hist step s as → x.2 ∈ as
  | [], _, _, hx => absurd hx not_mem_nil
  | a :: as, s, x, hx => by
    rcases mem_cons.mp hx with rfl | hx
    · exact mem_cons_self
    · cases hs : step s a with
      | none => rw [hs] at hx; exact absurd hx not_mem_nil
      | some t => rw [hs] at hx; exact mem_cons_of_mem _ (mem_hist hx)

end Machine
