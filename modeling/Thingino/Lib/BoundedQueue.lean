import Mathlib.Data.List.Basic

/-! A queue with a bound, as its user sees it.

A write appends as much of its argument as there is room for and says how much that
was; a peek shows a prefix, of any length but not nothing while something is there; a
consume drops from the front. `Run` is a whole sequence of operations with their
answers, `Machine.Refines` says that a machine with a state of its own answers as the
queue does, and `Refines.run` carries that from single operations to runs. -/
namespace Thingino.Lib.BoundedQueue

inductive Op (α : Type) where
  | init
  | write (src : List α)
  | peek
  | consume (n : Nat)

inductive Answer (α : Type) where
  | done
  | taken (n : Nat)
  | shown (front : List α)

section Queue
variable {α : Type} (cap : Nat)

/-- What the queue answers to an operation, and what it holds afterwards. -/
inductive Step : List α → Op α → Answer α → List α → Prop
  | init (q : List α) : Step q .init .done []
  | write (q src : List α) :
    Step q (.write src) (.taken (min src.length (cap - q.length))) (q ++ src.take (cap - q.length))
  | peek (q front : List α) (hfront : front <+: q) (hsome : q ≠ [] → front ≠ []) : Step q .peek (.shown front) q
  | consume (q : List α) (n : Nat) : Step q (.consume n) .done (q.drop n)

inductive Run : List α → List (Op α) → List (Answer α) → List α → Prop
  | nil (q : List α) : Run q [] [] q
  | cons {q q' q'' : List α} {op : Op α} {answer : Answer α} {ops : List (Op α)} {answers : List (Answer α)} :
    Step cap q op answer q' → Run q' ops answers q'' → Run q (op :: ops) (answer :: answers) q''

end Queue

/-! ### Machines that answer as the queue does -/

section Machine
variable {α σ : Type} {cap : Nat} (step : σ → Op α → σ × Answer α)

/-- The operations one after the other. -/
def runMachine : σ → List (Op α) → σ × List (Answer α)
  | s, [] => (s, [])
  | s, op :: ops =>
    let (s', answer) := step s op
    let (s'', answers) := runMachine s' ops
    (s'', answer :: answers)

/-- `contents` says which queue a state stands for, `inv` which states are meant. -/
structure Refines (cap : Nat) (inv : σ → Prop) (contents : σ → List α) : Prop where
  keeps : ∀ s op, inv s → inv (step s op).1
  answers : ∀ s op, inv s → Step cap (contents s) op (step s op).2 (contents (step s op).1)

variable {step} {inv : σ → Prop} {contents : σ → List α}

theorem Refines.run (h : Refines step cap inv contents) (s : σ) (ops : List (Op α)) (hs : inv s) :
    inv (runMachine step s ops).1 ∧
      Run cap (contents s) ops (runMachine step s ops).2 (contents (runMachine step s ops).1) := by
  induction ops generalizing s with
  | nil => exact ⟨hs, .nil _⟩
  | cons op ops ih =>
    obtain ⟨hinv, hrun⟩ := ih (step s op).1 (h.keeps s op hs)
    exact ⟨hinv, .cons (h.answers s op hs) hrun⟩

end Machine

end Thingino.Lib.BoundedQueue
