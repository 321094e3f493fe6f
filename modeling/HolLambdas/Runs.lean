import Mathlib.Logic.Basic

/-!
# Runs of a step function

A system is given by a partial function from a state and an action to the next
state; an action that is not enabled has no next state. `Reachable` collects the
states of all runs whose steps satisfy a condition, which may look at the state
and at the action. Every safety result goes through `Reachable.invariant`.

`Computes` is what a system is for that takes steps in any order and yet has one
result. `runActions` performs a given list of actions; it is how a particular run is
exhibited (`reachable_of_run`) and how long runs are bounded (`length_le_of_run`).
-/

namespace HolLambdas

variable {σ α : Type}

/-- The states reached from `init` by steps that satisfy `ok`. -/
inductive Reachable (step : σ → α → Option σ) (ok : σ → α → Prop) (init : σ) : σ → Prop
  | init : Reachable step ok init init
  | step {s s' : σ} {a : α} : Reachable step ok init s → ok s a → step s a = some s' →
      Reachable step ok init s'

section

variable {step : σ → α → Option σ} {ok : σ → α → Prop} {init : σ}

/-- What holds at first and is kept by every step holds of every state reached. -/
theorem Reachable.invariant {I : σ → Prop} (hinit : I init)
    (hstep : ∀ s a s', I s → ok s a → step s a = some s' → I s') {s : σ}
    (h : Reachable step ok init s) : I s := by
  induction h with
  | init => exact hinit
  | step _ hok hs ih => exact hstep _ _ _ ih hok hs

/-- Fewer conditions on the steps, more states. -/
theorem Reachable.mono {ok' : σ → α → Prop} (hok : ∀ s a, ok s a → ok' s a) {s : σ}
    (h : Reachable step ok init s) : Reachable step ok' init s := by
  induction h with
  | init => exact .init
  | step _ ha hs ih => exact .step ih (hok _ _ ha) hs

theorem Reachable.trans {s s' : σ} (h : Reachable step ok init s)
    (h' : Reachable step ok s s') : Reachable step ok init s' := by
  induction h' with
  | init => exact h
  | step _ hok hs ih => exact .step ih hok hs

/-- A system that only records something on the way reaches what the other one reaches. -/
theorem Reachable.map {τ : Type} {step' : τ → α → Option τ} {ok' : τ → α → Prop} (f : σ → τ)
    (hstep : ∀ s a, (step s a).map f = step' (f s) a) (hok : ∀ s a, ok s a → ok' (f s) a) {s : σ}
    (h : Reachable step ok init s) : Reachable step' ok' (f init) (f s) := by
  induction h with
  | init => exact .init
  | step _ ha hs ih => exact .step ih (hok _ _ ha) (by rw [← hstep, hs, Option.map_some])

/-- Conversely every run of the other one is a run of it. -/
theorem Reachable.lift {τ : Type} {step' : τ → α → Option τ} {ok' : τ → α → Prop} {f : σ → τ}
    (hstep : ∀ s a, (step s a).map f = step' (f s) a) (hok : ∀ s a, ok' (f s) a → ok s a) {t : τ}
    (h : Reachable step' ok' (f init) t) : ∃ s, f s = t ∧ Reachable step ok init s := by
  induction h with
  | init => exact ⟨init, rfl, .init⟩
  | step _ ha hs ih =>
    obtain ⟨s, rfl, hreach⟩ := ih
    rw [← hstep] at hs
    obtain ⟨s', hs', rfl⟩ := Option.map_eq_some_iff.mp hs
    exact ⟨s', rfl, .step hreach (hok _ _ ha) hs'⟩

/-- If every step lowers a measure and only a final state has no step, every run
can be completed. -/
theorem exists_final {I final : σ → Prop} (μ : σ → Nat)
    (hstep : ∀ s a s', I s → ok s a → step s a = some s' → I s' ∧ μ s' < μ s)
    (hprogress : ∀ s, I s → ¬ final s → ∃ a s', ok s a ∧ step s a = some s') {s : σ} (h : I s) :
    ∃ s', Reachable step ok s s' ∧ final s' := by
  induction hμ : μ s using Nat.strongRecOn generalizing s with
  | _ n ih =>
    by_cases hfinal : final s
    · exact ⟨s, .init, hfinal⟩
    · obtain ⟨a, s₁, hok, hs⟩ := hprogress s h hfinal
      obtain ⟨h₁, hlt⟩ := hstep s a s₁ h hok hs
      obtain ⟨s', hreach, hs'⟩ := ih (μ s₁) (hμ ▸ hlt) h₁ rfl
      have hfirst : Reachable step ok s s₁ := .step .init hok hs
      exact ⟨s', hfirst.trans hreach, hs'⟩

end

/-- Every run can be completed, and whenever it is, the output is `out`. -/
def Computes {γ : Type} (step : σ → α → Option σ) (init : σ) (final : σ → Prop) (output : σ → γ)
    (out : γ) : Prop :=
  (∀ s, Reachable step (fun _ _ => True) init s →
    ∃ s', Reachable step (fun _ _ => True) s s' ∧ final s') ∧
  ∀ s, Reachable step (fun _ _ => True) init s → final s → output s = out

/-- Perform the actions one after the other; each must be enabled and satisfy
`ok`. -/
def runActions (step : σ → α → Option σ) (ok : σ → α → Bool) : List α → σ → Option σ
  | [], s => some s
  | a :: as, s => if ok s a then (step s a).bind (runActions step ok as) else none

theorem reachable_of_run {step : σ → α → Option σ} {ok : σ → α → Bool} {init : σ}
    {as : List α} {s s' : σ} (hs : Reachable step (fun s a => ok s a = true) init s)
    (h : runActions step ok as s = some s') :
    Reachable step (fun s a => ok s a = true) init s' := by
  induction as generalizing s with
  | nil =>
    cases h
    exact hs
  | cons a as ih =>
    rw [runActions] at h
    by_cases ha : ok s a = true
    · rw [if_pos ha] at h
      obtain ⟨s₁, h₁, h⟩ := Option.bind_eq_some_iff.mp h
      exact ih (.step hs ha h₁) h
    · rw [if_neg ha] at h
      cases h

/-- Where every step lowers a measure, a run is no longer than the measure it starts with. -/
theorem length_le_of_run {step : σ → α → Option σ} {ok : σ → α → Bool} {I : σ → Prop} (μ : σ → Nat)
    (hstep : ∀ s a s', I s → ok s a = true → step s a = some s' → I s' ∧ μ s' < μ s)
    {as : List α} {s s' : σ} (hI : I s) (h : runActions step ok as s = some s') :
    I s' ∧ as.length + μ s' ≤ μ s := by
  induction as generalizing s with
  | nil =>
    cases h
    exact ⟨hI, Nat.le_of_eq (Nat.zero_add _)⟩
  | cons a as ih =>
    rw [runActions] at h
    by_cases ha : ok s a = true
    · rw [if_pos ha] at h
      obtain ⟨s₁, h₁, h⟩ := Option.bind_eq_some_iff.mp h
      obtain ⟨hI₁, hlt⟩ := hstep s a s₁ hI ha h₁
      obtain ⟨hI', hle⟩ := ih hI₁ h
      refine ⟨hI', ?_⟩
      rw [List.length_cons]
      omega
    · rw [if_neg ha] at h
      cases h

end HolLambdas
