import Mathlib

/-!
# Runs of guarded transitions

A system is a partial step function over named actions. A run is restricted to
the steps a guard allows, so what is proved of it holds of every run whose steps
all meet the guard.
-/
namespace Transition

variable {σ α : Type} {step : σ → α → Option σ}

/-- The states some sequence of allowed steps leads to from `s₀`. -/
inductive Run (step : σ → α → Option σ) (ok : σ → α → Prop) (s₀ : σ) : σ → Prop
  | init : Run step ok s₀ s₀
  | next {s t : σ} {a : α} (before : Run step ok s₀ s) (allowed : ok s a) (now : step s a = some t) :
      Run step ok s₀ t

/-- Every allowed step keeps `I`. -/
def Preserves (step : σ → α → Option σ) (ok : σ → α → Prop) (I : σ → Prop) : Prop :=
  ∀ ⦃s t : σ⦄ ⦃a : α⦄, ok s a → step s a = some t → I s → I t

variable {ok ok' : σ → α → Prop} {s₀ s t : σ} {I : σ → Prop}

/-- The rule for invariants. -/
theorem Run.invariant (hrun : Run step ok s₀ s) (hinit : I s₀) (hstep : Preserves step ok I) : I s := by
  induction hrun with
  | init => exact hinit
  | next _ hok hnow ih => exact hstep hok hnow ih

theorem Run.mono (hrun : Run step ok s₀ s) (himp : ∀ s a, ok s a → ok' s a) : Run step ok' s₀ s := by
  induction hrun with
  | init => exact .init
  | next _ hok hnow ih => exact .next ih (himp _ _ hok) hnow

theorem Run.trans {u : σ} (hrun : Run step ok s₀ s) (hrest : Run step ok s u) : Run step ok s₀ u := by
  induction hrest with
  | init => exact hrun
  | next _ hok hnow ih => exact .next ih hok hnow

/-! ## What every run comes to -/

/-- Whatever allowed steps are taken from the state, they lead to one of which `Q` holds. -/
inductive Inevitable (step : σ → α → Option σ) (ok : σ → α → Prop) (Q : σ → Prop) : σ → Prop
  | now {s : σ} (here : Q s) : Inevitable step ok Q s
  | later {s : σ} (moves : ∃ a t, step s a = some t)
      (each : ∀ a t, ok s a → step s a = some t → Inevitable step ok Q t) : Inevitable step ok Q s

/-- A run from which no other allowed step branches off. -/
theorem Inevitable.of_run {Q : σ → Prop} (hrun : Run step ok s t) (h : Inevitable step ok' Q t)
    (honly : ∀ s a b, ok s a → ok' s b → b = a) : Inevitable step ok' Q s := by
  induction hrun with
  | init => exact h
  | @next t u a _ hok hnow ih =>
      refine ih (.later ⟨a, u, hnow⟩ fun b v hb hv => ?_)
      rw [honly t a b hok hb, hnow] at hv
      exact Option.some.inj hv ▸ h

/-! ## Runs given by their actions -/

/-- The steps of `step` the guard allows. -/
def guarded (step : σ → α → Option σ) (ok : σ → α → Prop) [∀ s a, Decidable (ok s a)] (s : σ)
    (a : α) : Option σ := if ok s a then step s a else none

/-- The state after the actions, if each of them is possible in turn. -/
def exec (step : σ → α → Option σ) : List α → σ → Option σ
  | [], s => some s
  | a :: as, s => (step s a).bind (exec step as)

theorem run_of_exec [∀ s a, Decidable (ok s a)] {as : List α}
    (hexec : exec (guarded step ok) as s = some t) : Run step ok s t := by
  induction as generalizing s with
  | nil =>
      cases hexec
      exact .init
  | cons a as ih =>
      obtain ⟨u, hnow, hrest⟩ := Option.bind_eq_some_iff.mp hexec
      unfold guarded at hnow
      split_ifs at hnow with hok
      exact (Run.next .init hok hnow).trans (ih hrest)

/-- A run to a state of which a test holds, found by running it. -/
theorem exists_run_of_exec (step : σ → α → Option σ) (ok : σ → α → Prop)
    [∀ s a, Decidable (ok s a)] (s : σ) (as : List α) (P : σ → Bool)
    (hexec : (exec (guarded step ok) as s).any P = true) : ∃ t, Run step ok s t ∧ P t = true := by
  cases ht : exec (guarded step ok) as s with
  | none => simp [ht] at hexec
  | some t => exact ⟨t, run_of_exec ht, by simpa [ht] using hexec⟩

end Transition
