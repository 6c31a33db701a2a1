import Mathlib.Data.List.Basic

/-!
# Labelled runs of a transition system

A step relation carries a label for what happened. `Reaches step s₀ history s` says
that the system can go from `s₀` to `s` while the labels of `history` happen, the
most recent label first. Facts about whole runs are proved by one induction, stated
here, from facts about one step.

## Main results

* `Reaches.invariant` — what holds at the start and is kept by each step holds of
  every run, where it may mention the history
* `Reaches.lockstep` — two systems side by side
* `Reaches.imp` — a run stays a run when the steps are allowed more
* `Reaches.forall_iff` — two properties of steps hold of the same runs when each step that
  is the first to be judged has both or neither
-/

namespace OpenIDP.Math

variable {σ α : Type*}

/-- Runs of a labelled transition relation from `s₀`, with their labels in reverse
order of time. -/
inductive Reaches (step : σ → α → σ → Prop) (s₀ : σ) : List α → σ → Prop
  | start : Reaches step s₀ [] s₀
  | snoc {history : List α} {s t : σ} {a : α} :
      Reaches step s₀ history s → step s a t → Reaches step s₀ (a :: history) t

namespace Reaches

variable {step step' : σ → α → σ → Prop} {s₀ s t u : σ} {a : α} {history later : List α}

/-- The invariant rule for runs. -/
theorem invariant {I : List α → σ → Prop} (hstart : I [] s₀)
    (hstep : ∀ history s a t, I history s → step s a t → I (a :: history) t)
    (run : Reaches step s₀ history s) : I history s := by
  induction run with
  | start => exact hstart
  | snoc _ hlast ih => exact hstep _ _ _ _ ih hlast

/-- The invariant rule for facts that do not mention the history. -/
theorem invariant_state {I : σ → Prop} (hstart : I s₀)
    (hstep : ∀ s a t, I s → step s a t → I t) (run : Reaches step s₀ history s) : I s :=
  invariant (I := fun _ s => I s) hstart (fun _ s a t => hstep s a t) run

/-- Runs compose. -/
theorem trans (first : Reaches step s₀ history s) (second : Reaches step s later t) :
    Reaches step s₀ (later ++ history) t := by
  induction second with
  | start => exact first
  | snoc _ hlast ih => exact ih.snoc hlast

/-- A run stays a run when more steps are allowed. -/
theorem imp (hweaker : ∀ s a t, step s a t → step' s a t)
    (run : Reaches step s₀ history s) : Reaches step' s₀ history s := by
  induction run with
  | start => exact .start
  | snoc _ hlast ih => exact ih.snoc (hweaker _ _ _ hlast)

/-- The last step of a nonempty run. -/
theorem cons_iff :
    Reaches step s₀ (a :: history) t ↔ ∃ s, Reaches step s₀ history s ∧ step s a t := by
  constructor
  · intro run
    cases run with
    | snoc hrun hlast => exact ⟨_, hrun, hlast⟩
  · rintro ⟨s, hrun, hlast⟩
    exact hrun.snoc hlast

/-- Two systems whose steps match go through the same labels side by side. -/
theorem lockstep {τ : Type*} {follow : τ → α → τ → Prop} {R : σ → τ → Prop} {u₀ : τ}
    (hstart : R s₀ u₀)
    (hstep : ∀ s u a t, R s u → step s a t → ∃ u', follow u a u' ∧ R t u')
    (run : Reaches step s₀ history s) : ∃ u, Reaches follow u₀ history u ∧ R s u := by
  induction run with
  | start => exact ⟨u₀, .start, hstart⟩
  | snoc _ hlast ih =>
    obtain ⟨u, hrun, hrelated⟩ := ih
    obtain ⟨u', hfollow, hrelated'⟩ := hstep _ _ _ _ hrelated hlast
    exact ⟨u', hrun.snoc hfollow, hrelated'⟩

end Reaches

/-! ## Runs that remember their states -/

/-- A label together with the states before and after. -/
structure Transition (σ α : Type*) where
  before : σ
  label : α
  after : σ

/-- The same steps, labelled with their states too. -/
def Traced (step : σ → α → σ → Prop) (s : σ) (t : Transition σ α) (s' : σ) : Prop :=
  t.before = s ∧ t.after = s' ∧ step s t.label s'

namespace Reaches

variable {step : σ → α → σ → Prop} {s₀ s : σ} {trace : List (Transition σ α)}

/-- One more step, remembered with its states. -/
theorem next {a : α} {t : σ} (run : Reaches (Traced step) s₀ trace s) (hlast : step s a t) :
    Reaches (Traced step) s₀ (⟨s, a, t⟩ :: trace) t :=
  run.snoc ⟨rfl, rfl, hlast⟩

/-- Forgetting the states. -/
theorem labels (run : Reaches (Traced step) s₀ trace s) :
    Reaches step s₀ (trace.map Transition.label) s := by
  induction run with
  | start => exact .start
  | snoc _ hlast ih => exact ih.snoc hlast.2.2

/-- Two properties hold of all steps of the same runs, if after steps that have them the
next step has both or neither. -/
theorem forall_iff {P Q : Transition σ α → Prop}
    (hstep : ∀ trace s t s', Reaches (Traced step) s₀ trace s → (∀ u ∈ trace, Q u) →
      Traced step s t s' → (P t ↔ Q t))
    (run : Reaches (Traced step) s₀ trace s) : (∀ t ∈ trace, P t) ↔ ∀ t ∈ trace, Q t := by
  induction run with
  | start => exact iff_of_true (List.forall_mem_nil _) (List.forall_mem_nil _)
  | snoc hrun hlast ih =>
    rw [List.forall_mem_cons, List.forall_mem_cons, ih]
    exact and_congr_left fun hQ => hstep _ _ _ _ hrun hQ hlast

end Reaches

end OpenIDP.Math
