import Mathlib.Data.List.Basic

/-! Runs of a machine that takes one event at a time.

A machine is a partial step function: an event that cannot happen in a state has no
successor. `Reach step ok init s` says that a run of the machine leads from `init` to
`s` and that each of its steps satisfies `ok`. `Reach.invariant` is the induction
over such runs, `reach_run` builds one from a list of events. -/
namespace Thingino.Lib

section Transition
variable {σ ε : Type} (step : σ → ε → Option σ)

inductive Reach (ok : σ → ε → Prop) (init : σ) : σ → Prop
  | start : Reach ok init init
  | next {s s' : σ} {e : ε} : Reach ok init s → ok s e → step s e = some s' → Reach ok init s'

variable {step} {ok : σ → ε → Prop} {init : σ}

/-- What holds at the start and is kept by each step holds all along. -/
theorem Reach.invariant {inv : σ → Prop} (hstart : inv init)
    (hstep : ∀ s e s', inv s → ok s e → step s e = some s' → inv s') {s : σ} (h : Reach step ok init s) : inv s := by
  induction h with
  | start => exact hstart
  | next _ hok heq ih => exact hstep _ _ _ ih hok heq

/-- A run that keeps to a condition keeps to any weaker one. -/
theorem Reach.weaken {ok' : σ → ε → Prop} (hweak : ∀ s e, ok s e → ok' s e) {s : σ} (h : Reach step ok init s) :
    Reach step ok' init s := by
  induction h with
  | start => exact .start
  | next _ hok heq ih => exact ih.next (hweak _ _ hok) heq

/-- The events of a list, one after the other, as far as they are possible and satisfy `ok`. -/
def run (step : σ → ε → Option σ) (ok : σ → ε → Prop) [∀ s e, Decidable (ok s e)] : σ → List ε → Option σ
  | s, [] => some s
  | s, e :: es => if ok s e then (step s e).bind fun s' => run step ok s' es else none

theorem reach_run [∀ s e, Decidable (ok s e)] {s s' : σ} {es : List ε} (h : Reach step ok init s)
    (hrun : run step ok s es = some s') : Reach step ok init s' := by
  induction es generalizing s with
  | nil =>
    rw [run, Option.some.injEq] at hrun
    exact hrun ▸ h
  | cons e es ih =>
    rw [run, Option.ite_none_right_eq_some, Option.bind_eq_some_iff] at hrun
    obtain ⟨hok, s₁, hs₁, hrest⟩ := hrun
    exact ih (h.next hok hs₁) hrest

/-- Carrying out a run shows what it can lead to. -/
theorem exists_reach [∀ s e, Decidable (ok s e)] {P : σ → Prop} [DecidablePred P] (es : List ε)
    (h : (run step ok init es).any (fun s => P s) = true) : ∃ s, Reach step ok init s ∧ P s := by
  rw [Option.any_eq_true] at h
  obtain ⟨s, hs, hP⟩ := h
  exact ⟨s, reach_run .start hs, of_decide_eq_true hP⟩

end Transition

end Thingino.Lib
