import Mathlib.Logic.Function.Iterate

/-! Machines that answer every letter of their input with one letter.

`transduce step s l` runs such a machine over `l` from the state `s`: what it answers,
and the state it is left in. A run over two inputs in a row is one run over both
(`transduce_append`). A machine that undoes another one letter at a time, from the same
state and into the same state, undoes it over every input (`transduce_undo`). A part of
the state that changes only at some steps, always by the same function, has changed as
often as there were such steps (`transduce_iterate`); a machine that reads nothing of its
input but to join it to a pad answers with the input and the pads (`transduce_pad`). -/
namespace Thingino.Lib
variable {σ α β : Type}

def transduce (step : σ → α → β × σ) : σ → List α → List β × σ
  | s, [] => ([], s)
  | s, x :: xs =>
    let (y, s) := step s x
    let (ys, s) := transduce step s xs
    (y :: ys, s)

/-- The steps of a run that start in a state of `p`. -/
def visits (step : σ → α → β × σ) (p : σ → Prop) [DecidablePred p] : σ → List α → Nat
  | _, [] => 0
  | s, x :: xs => (if p s then 1 else 0) + visits step p (step s x).2 xs

section Rules
variable (step : σ → α → β × σ)

theorem transduce_cons (s : σ) (x : α) (xs : List α) :
    transduce step s (x :: xs) =
      ((step s x).1 :: (transduce step (step s x).2 xs).1, (transduce step (step s x).2 xs).2) := rfl

theorem transduce_append (s : σ) (a b : List α) :
    transduce step s (a ++ b) =
      ((transduce step s a).1 ++ (transduce step (transduce step s a).2 b).1,
        (transduce step (transduce step s a).2 b).2) := by
  induction a generalizing s with
  | nil => rfl
  | cons x a ih => rw [List.cons_append, transduce_cons, ih, transduce_cons, List.cons_append]

/-- One letter undone, with the same next state, is a whole run undone. -/
theorem transduce_undo {step : σ → α → β × σ} {back : σ → β → α × σ}
    (h : ∀ s x, back s (step s x).1 = (x, (step s x).2)) (s : σ) (xs : List α) :
    transduce back s (transduce step s xs).1 = (xs, (transduce step s xs).2) := by
  induction xs generalizing s with
  | nil => rfl
  | cons x xs ih => rw [transduce_cons, transduce_cons, h, ih]

/-- A part of the state that `next` moves in the states of `p`, and nothing else moves. -/
theorem transduce_iterate {τ : Type} (p : σ → Prop) [DecidablePred p] (part : σ → τ) (next : τ → τ)
    (h : ∀ s x, part (step s x).2 = if p s then next (part s) else part s) (s : σ) (xs : List α) :
    part (transduce step s xs).2 = next^[visits step p s xs] (part s) := by
  induction xs generalizing s with
  | nil => rfl
  | cons x xs ih =>
    rw [transduce_cons, ih, h, visits]
    by_cases hp : p s
    · rw [if_pos hp, if_pos hp, Nat.add_comm, Function.iterate_succ_apply]
    · rw [if_neg hp, if_neg hp, Nat.zero_add]

/-- A machine whose next state does not depend on the letter, and whose answer joins the
letter to something read off the state. -/
theorem transduce_pad {γ : Type} (join : α → γ → β) (pad : σ → γ) (next : σ → σ)
    (h : ∀ s x, step s x = (join x (pad s), next s)) (s : σ) (xs : List α) :
    (transduce step s xs).1 = List.zipWith join xs ((List.range xs.length).map fun i => pad (next^[i] s)) := by
  induction xs generalizing s with
  | nil => rfl
  | cons x xs ih =>
    rw [transduce_cons, h, ih, List.length_cons, List.range_succ_eq_map, List.map_cons, List.map_map]
    rfl

end Rules

end Thingino.Lib
