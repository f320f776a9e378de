import Mathlib.Data.List.Lex
import Thingino.Lib.Shell
import Thingino.Lib.SortUnique

/-! Numbers with a fixed number of digits, and the order of the lines they stand in.

A line of fields, each with its width and a byte behind it, comes before another one with the same widths when its
values do, the first field counting most (`lineLt_fields`). So a time that is written from the year down to the second
sorts as a text. -/
namespace Thingino.Lib

/-- The line comes strictly before. -/
def lineLt (a b : List Byte) : Prop := a.map BitVec.toNat < b.map BitVec.toNat

instance : DecidableRel lineLt := fun a b => inferInstanceAs (Decidable (a.map BitVec.toNat < b.map BitVec.toNat))

section Order
variable {a b x y : List Byte}

theorem lineLt_cons {c d : Byte} : lineLt (c :: a) (d :: b) ↔ c.toNat < d.toNat ∨ c = d ∧ lineLt a b := by
  unfold lineLt
  rw [List.map_cons, List.map_cons, List.cons_lt_cons_iff, BitVec.toNat_inj]

/-- Behind the same text. -/
theorem lineLt_append_left (a : List Byte) (h : lineLt x y) : lineLt (a ++ x) (a ++ y) := by
  induction a with
  | nil => exact h
  | cons c a ih => exact lineLt_cons.mpr (.inr ⟨rfl, ih⟩)

/-- What stands behind texts of one length that differ does not matter. -/
theorem lineLt_append_right (hlen : a.length = b.length) (h : lineLt a b) (x y : List Byte) :
    lineLt (a ++ x) (b ++ y) := by
  induction a generalizing b with
  | nil =>
    cases b with
    | nil => exact absurd h (lt_irrefl _)
    | cons d b => cases hlen
  | cons c a ih =>
    cases b with
    | nil => cases hlen
    | cons d b =>
      obtain hlt | ⟨rfl, hrest⟩ := lineLt_cons.mp h
      · exact lineLt_cons.mpr (.inl hlt)
      · exact lineLt_cons.mpr (.inr ⟨rfl, ih (Nat.succ.inj hlen) hrest⟩)

theorem lineLt_irrefl (a : List Byte) : ¬lineLt a a := lt_irrefl _

theorem not_lineLe_of_lineLt (h : lineLt a b) : ¬lineLe b a := not_le_of_gt h

end Order

namespace FixedWidth

/-- The last `w` digits of a number. -/
def padded : Nat → Nat → List Byte
  | 0, _ => []
  | w + 1, n => padded w (n / 10) ++ [Shell.digit (n % 10)]

@[simp] theorem length_padded (w n : Nat) : (padded w n).length = w := by
  induction w generalizing n with
  | zero => rfl
  | succ w ih => rw [padded, List.length_append, ih, List.length_singleton]

theorem lineLt_digit {m n : Nat} (hn : n < 10) (h : m < n) : lineLt [Shell.digit m] [Shell.digit n] := by
  refine lineLt_cons.mpr (.inl ?_)
  rw [Shell.toNat_digit (h.trans hn), Shell.toNat_digit hn]
  exact Nat.add_lt_add_left h 48

theorem lineLt_padded {w m n : Nat} (hn : n < 10 ^ w) (h : m < n) : lineLt (padded w m) (padded w n) := by
  induction w generalizing m n with
  | zero =>
    rw [Nat.pow_zero] at hn
    omega
  | succ w ih =>
    rw [Nat.pow_succ] at hn
    rw [padded, padded]
    obtain hlt | heq := Nat.lt_or_eq_of_le (Nat.div_le_div_right (c := 10) h.le)
    · exact lineLt_append_right (by simp) (ih (by omega) hlt) _ _
    · rw [heq]
      exact lineLt_append_left _ (lineLt_digit (Nat.mod_lt _ (by decide)) (by omega))

/-- Fields with the byte behind each. -/
def fields : List (Nat × Byte) → List Nat → List Byte
  | (w, c) :: format, v :: values => padded w v ++ c :: fields format values
  | _, _ => []

/-- Each value has its digits. -/
def Fits : List (Nat × Byte) → List Nat → Prop
  | (w, _) :: format, v :: values => v < 10 ^ w ∧ Fits format values
  | [], [] => True
  | _, _ => False

theorem lineLt_fields {format : List (Nat × Byte)} {u v : List Nat} (hu : Fits format u) (hv : Fits format v)
    (h : u < v) (x y : List Byte) : lineLt (fields format u ++ x) (fields format v ++ y) := by
  induction format generalizing u v with
  | nil =>
    cases u with
    | nil =>
      cases v with
      | nil => exact absurd h (lt_irrefl _)
      | cons _ _ => cases hv
    | cons _ _ => cases hu
  | cons f format ih =>
    obtain ⟨w, c⟩ := f
    cases u with
    | nil => cases hu
    | cons a u =>
      cases v with
      | nil => cases hv
      | cons b v =>
        rw [fields, fields, List.append_assoc, List.append_assoc]
        obtain hlt | ⟨rfl, hrest⟩ := List.cons_lt_cons_iff.mp h
        · exact lineLt_append_right (by simp) (lineLt_padded hv.1 hlt) _ _
        · exact lineLt_append_left _ (lineLt_cons.mpr (.inr ⟨rfl, ih hu.2 hv.2 hrest⟩))

end FixedWidth

end Thingino.Lib
