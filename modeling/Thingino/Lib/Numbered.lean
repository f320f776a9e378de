import Mathlib.Data.List.Basic

/-! Parties that are numbered in the order in which they came, as a list: one of them changes, or one more
comes. -/
namespace Thingino.Lib

namespace Numbered

variable {α : Type} {l : List α} {i j : Nat} {a b old new : α}

/-- A party is the one with a number, or one of the others. -/
theorem mem_iff (hold : l[i]? = some old) (a : α) : a ∈ l ↔ a = old ∨ a ∈ l.eraseIdx i := by
  rw [List.mem_eraseIdx_iff_getElem?, List.mem_iff_getElem?]
  constructor
  · intro hmem
    obtain ⟨j, hj⟩ := hmem
    by_cases hji : j = i
    · subst hji
      rw [hold, Option.some.injEq] at hj
      exact .inl hj.symm
    · exact .inr ⟨j, hji, hj⟩
  · intro hparty
    obtain rfl | ⟨j, -, hj⟩ := hparty
    · exact ⟨i, hold⟩
    · exact ⟨j, hj⟩

/-- When one changes, the others are still there. -/
theorem mem_set_iff (hold : l[i]? = some old) (a : α) : a ∈ l.set i new ↔ a = new ∨ a ∈ l.eraseIdx i := by
  obtain ⟨hi, -⟩ := List.getElem?_eq_some_iff.mp hold
  rw [mem_iff (List.getElem?_set_self hi), List.eraseIdx_set_eq]

theorem getElem?_set_self (hold : l[i]? = some old) : (l.set i new)[i]? = some new :=
  List.getElem?_set_self (List.getElem?_eq_some_iff.mp hold).1

/-- Who has a number after one has changed. -/
theorem of_getElem?_set (hold : l[i]? = some old) (h : (l.set i new)[j]? = some b) :
    j = i ∧ b = new ∨ j ≠ i ∧ l[j]? = some b := by
  by_cases hji : j = i
  · subst hji
    rw [getElem?_set_self hold, Option.some.injEq] at h
    exact .inl ⟨rfl, h.symm⟩
  · rw [List.getElem?_set_ne (Ne.symm hji)] at h
    exact .inr ⟨hji, h⟩

/-- Who has a number after one more has come. -/
theorem of_getElem?_concat (h : (l ++ [new])[j]? = some b) : j = l.length ∧ b = new ∨ l[j]? = some b := by
  rw [List.getElem?_append] at h
  split at h
  · exact .inr h
  · rw [List.getElem?_singleton, Option.ite_none_right_eq_some, Option.some.injEq] at h
    exact .inl ⟨by omega, h.2.symm⟩

end Numbered

end Thingino.Lib
