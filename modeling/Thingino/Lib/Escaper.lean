import Mathlib.Data.List.Infix

/-! Escaping into a buffer.

A loop goes over a text and writes a few bytes for each element, as long as the most that an element may take, and one
byte more, have room. What it takes over is the beginning of the text (`taken_isPrefix`), each element as a whole; and
what it writes never fills the buffer (`length_taken`). -/
namespace Thingino.Lib

/-- What is written for each element. -/
structure Escaper (α β : Type) where
  bytes : α → List β
  most : Nat
  bound : ∀ a, (bytes a).length ≤ most

namespace Escaper
variable {α β : Type} (E : Escaper α β)

def escape (s : List α) : List β := s.flatMap E.bytes

/-- What is taken over by a loop that has written `j` bytes to a buffer. -/
def taken (size j : Nat) : List α → List α
  | [] => []
  | a :: s => if j + E.most < size then a :: taken size (j + (E.bytes a).length) s else []

variable {size j : Nat} {s : List α} {a : α}

theorem escape_cons (a : α) (s : List α) : E.escape (a :: s) = E.bytes a ++ E.escape s := rfl

theorem escape_singleton (a : α) : E.escape [a] = E.bytes a := List.append_nil _

theorem escape_append (s t : List α) : E.escape (s ++ t) = E.escape s ++ E.escape t := List.flatMap_append

theorem length_escape (s : List α) : (E.escape s).length ≤ E.most * s.length := by
  induction s with
  | nil => exact Nat.le_refl 0
  | cons a s ih =>
    have ha := E.bound a
    rw [escape_cons, List.length_append, List.length_cons, Nat.mul_succ]
    omega

theorem taken_isPrefix (size j : Nat) (s : List α) : E.taken size j s <+: s := by
  induction s generalizing j with
  | nil => exact List.nil_prefix
  | cons a s ih =>
    rw [taken]
    split
    · exact List.cons_prefix_cons.mpr ⟨rfl, ih _⟩
    · exact List.nil_prefix

/-- What is left of the text. -/
theorem taken_append_drop (size : Nat) (s : List α) :
    s = E.taken size 0 s ++ s.drop (E.taken size 0 s).length :=
  (List.prefix_iff_eq_append.mp (E.taken_isPrefix size 0 s)).symm

/-- There is room for one byte more. -/
theorem length_taken (hj : j < size) (s : List α) : j + (E.escape (E.taken size j s)).length < size := by
  induction s generalizing j with
  | nil => exact hj
  | cons a s ih =>
    have ha := E.bound a
    rw [taken]
    split
    · have hrest := @ih (j + (E.bytes a).length) (by omega)
      rw [escape_cons, List.length_append]
      omega
    · exact hj

/-- Where the loop still runs behind a text, it took all of it. -/
theorem taken_append (h : j + (E.escape s).length + E.most < size) (t : List α) :
    E.taken size j (s ++ t) = s ++ E.taken size (j + (E.escape s).length) t := by
  induction s generalizing j with
  | nil => rfl
  | cons a s ih =>
    rw [escape_cons, List.length_append] at h
    rw [List.cons_append, taken, if_pos (by omega), ih (by omega), escape_cons, List.length_append, Nat.add_assoc]
    rfl

/-- The whole text is taken over exactly where the loop still runs in front of its last element. -/
theorem taken_eq_self_iff (size j : Nat) (s : List α) :
    E.taken size j s = s ↔ s = [] ∨ j + (E.escape s.dropLast).length + E.most < size := by
  induction s generalizing j with
  | nil => exact iff_of_true rfl (Or.inl rfl)
  | cons a s ih =>
    rw [taken]
    cases s with
    | nil =>
      split
      · rename_i hj
        exact iff_of_true rfl (Or.inr hj)
      · rename_i hj
        refine iff_of_false (fun h => by cases h) fun h => ?_
        rcases h with h | h
        · cases h
        · exact hj h
    | cons b s =>
      rw [List.dropLast_cons_cons, escape_cons, List.length_append]
      split
      · rw [List.cons.injEq, and_iff_right rfl, ih, or_iff_right (List.cons_ne_nil _ _),
          or_iff_right (List.cons_ne_nil _ _), Nat.add_assoc j]
      · rename_i hj
        refine iff_of_false (fun h => by cases h) fun h => ?_
        rcases h with h | h
        · cases h
        · omega

/-- A buffer that has the most room for each element, and one byte more, takes the whole text. -/
theorem taken_eq_self (h : j + E.most * s.length < size) : E.taken size j s = s := by
  rw [taken_eq_self_iff]
  cases s with
  | nil => exact Or.inl rfl
  | cons a s =>
    right
    have hlen := E.length_escape (a :: s).dropLast
    rw [List.length_dropLast, List.length_cons, Nat.add_sub_cancel] at hlen
    rw [List.length_cons, Nat.mul_succ] at h
    omega

end Escaper

end Thingino.Lib
