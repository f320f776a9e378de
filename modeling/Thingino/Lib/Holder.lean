import Mathlib.Data.Option.Basic
import Mathlib.Logic.Function.Basic

/-! One holder among many parties.

Each party is at some place, and some places own a thing that only one party may have. `Holds` says that
the places and a record of the holder agree; from that, nobody else owns it (`Holds.unique`). The rest is
what one party's move does to it. -/
namespace Thingino.Lib

section Holder
variable {π τ : Type} {owns : τ → Bool} {place : π → τ} {holder : Option π} {p : π} {t : τ}

/-- The parties at a place that owns are the holder, and no other. -/
def Holds (owns : τ → Bool) (place : π → τ) (holder : Option π) : Prop :=
  ∀ p, owns (place p) = true ↔ holder = some p

theorem Holds.unique (h : Holds owns place holder) {q : π} (hp : owns (place p) = true) (hq : owns (place q) = true) :
    p = q :=
  Option.some.inj (((h p).mp hp).symm.trans ((h q).mp hq))

theorem Holds.free (h : Holds owns place none) (p : π) : owns (place p) = false := by
  rw [← Bool.not_eq_true, h p]
  exact (Option.some_ne_none p).symm

variable [DecidableEq π]

/-- A move that owns as much as before. -/
theorem Holds.move (h : Holds owns place holder) (hsame : owns t = owns (place p)) :
    Holds owns (Function.update place p t) holder := by
  intro q
  by_cases hq : q = p
  · subst hq
    rw [Function.update_self, hsame, h q]
  · rw [Function.update_of_ne hq, h q]

/-- Who takes what nobody has is the holder. -/
theorem Holds.take (h : Holds owns place none) (hown : owns t = true) :
    Holds owns (Function.update place p t) (some p) := by
  intro q
  by_cases hq : q = p
  · subst hq
    rw [Function.update_self, hown]
    exact iff_of_true rfl rfl
  · rw [Function.update_of_ne hq, h.free q]
    exact iff_of_false Bool.false_ne_true fun heq => hq (Option.some.inj heq).symm

/-- A party that leaves does not hold it any more. -/
theorem Holds.leave (h : Holds owns place holder) (hown : owns t = false) :
    Holds owns (Function.update place p t) (holder.filter (· ≠ p)) := by
  intro q
  rw [Option.filter_eq_some_iff]
  by_cases hq : q = p
  · subst hq
    rw [Function.update_self, hown]
    exact iff_of_false Bool.false_ne_true fun hheld => of_decide_eq_true hheld.2 rfl
  · rw [Function.update_of_ne hq, h q]
    exact ⟨fun hheld => ⟨hheld, decide_eq_true hq⟩, And.left⟩

end Holder

end Thingino.Lib
