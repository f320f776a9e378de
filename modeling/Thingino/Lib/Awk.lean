import Mathlib.Data.Rat.Floor
import Thingino.Lib.Shell

/-! The numbers and the fields of `awk`.

Its numbers are floating-point; what a text is as a number, and what arithmetic makes of numbers, is its own.
`Awk` has what a program may rely on: whole numbers below 2^53 are exact, a text of digits is the number it
reads as, and the whole part of a quotient by a power of two is the whole quotient. -/
namespace Thingino.Lib

open Shell

structure Awk where
  Num : Type
  ofNat : Nat → Num
  ofText : List Byte → Num
  add : Num → Num → Num
  sub : Num → Num → Num
  mul : Num → Num → Num
  div : Num → Num → Num
  int : Num → Num
  lt : Num → Num → Bool
  eq : Num → Num → Bool
  ofText_decimal : ∀ s : List Byte, s ≠ [] → s.all isDigit = true → decimal s < 9007199254740992 → ofText s = ofNat (decimal s)
  add_ofNat : ∀ a b : Nat, a + b < 9007199254740992 → add (ofNat a) (ofNat b) = ofNat (a + b)
  sub_ofNat : ∀ a b : Nat, b ≤ a → a < 9007199254740992 → sub (ofNat a) (ofNat b) = ofNat (a - b)
  mul_ofNat : ∀ a b : Nat, a * b < 9007199254740992 → mul (ofNat a) (ofNat b) = ofNat (a * b)
  int_ofNat : ∀ a : Nat, a < 9007199254740992 → int (ofNat a) = ofNat a
  int_div : ∀ a k : Nat, a < 9007199254740992 → k ≤ 52 → int (div (ofNat a) (ofNat (2 ^ k))) = ofNat (a / 2 ^ k)
  lt_ofNat : ∀ a b : Nat, a < 9007199254740992 → b < 9007199254740992 → lt (ofNat a) (ofNat b) = decide (a < b)
  eq_ofNat : ∀ a b : Nat, a < 9007199254740992 → b < 9007199254740992 → eq (ofNat a) (ofNat b) = decide (a = b)

namespace Awk

/-- The record that a program reads first. -/
def record (input : List Byte) : List Byte := input.takeWhile (· ≠ 10)

/-- `$1`, `$2` and so on, counted from 0. -/
def fields (record : List Byte) : List (List Byte) := (record.splitOnP isBlank).filter (· ≠ [])

/-- `split(s, a, sep)`: `a[1]`, `a[2]` and so on, counted from 0; what is not there is empty. -/
def split (sep : Byte) (s : List Byte) (i : Nat) : List Byte := (s.splitOn sep).getD i []

/-- Fields with a blank between them. -/
def join (fields : List (List Byte)) : List Byte := [32].intercalate fields

theorem fields_append (a b : List Byte) : fields (a ++ 32 :: b) = fields a ++ fields b := by
  rw [fields, List.splitOnP_append_cons a b (rfl : isBlank 32 = true), List.filter_append]
  rfl

theorem join_append {as bs : List (List Byte)} (has : as ≠ []) (hbs : bs ≠ []) :
    join (as ++ bs) = join as ++ 32 :: join bs := by
  induction as with
  | nil => exact absurd rfl has
  | cons a as ih =>
    unfold join at ih ⊢
    rw [List.cons_append, List.intercalate_cons_of_ne_nil (List.append_ne_nil_of_right_ne_nil as hbs)]
    by_cases hnil : as = []
    · subst hnil
      simp
    · rw [ih hnil, List.intercalate_cons_of_ne_nil hnil]
      simp

/-- Two words in a record. -/
theorem fields_pair {a b : List Byte} (ha : a ≠ []) (hb : b ≠ []) (hablank : ∀ c ∈ a, isBlank c = false)
    (hbblank : ∀ c ∈ b, isBlank c = false) : fields (a ++ 32 :: b) = [a, b] := by
  rw [fields, List.splitOnP_append_cons_of_forall_mem hablank 32 rfl, List.splitOnP_eq_singleton hbblank,
    List.filter_eq_self]
  intro s hs
  obtain rfl | hs := List.mem_cons.mp hs
  · exact decide_eq_true ha
  · exact List.mem_singleton.mp hs ▸ decide_eq_true hb

/-- Rational numbers are one way to calculate. -/
def rational : Awk where
  Num := ℚ
  ofNat n := n
  ofText s := decimal (s.takeWhile isDigit)
  add := (· + ·)
  sub := (· - ·)
  mul := (· * ·)
  div := (· / ·)
  int q := if 0 ≤ q then ⌊q⌋ else ⌈q⌉
  lt a b := a < b
  eq a b := a = b
  ofText_decimal s _ hall _ := by
    have htake : s.takeWhile isDigit = s := List.takeWhile_eq_self_iff.mpr (List.all_eq_true.mp hall)
    rw [htake]
  add_ofNat a b _ := (Nat.cast_add a b).symm
  sub_ofNat a b hle _ := (Nat.cast_sub hle).symm
  mul_ofNat a b _ := (Nat.cast_mul a b).symm
  int_ofNat a _ := by
    rw [if_pos (Nat.cast_nonneg a), Int.floor_natCast]
    exact Int.cast_natCast a
  int_div a k _ _ := by
    have hnonneg : (0 : ℚ) ≤ (a : ℚ) / ((2 ^ k : Nat) : ℚ) := div_nonneg (Nat.cast_nonneg a) (Nat.cast_nonneg _)
    rw [if_pos hnonneg, Rat.floor_natCast_div_natCast]
    norm_cast
  lt_ofNat a b _ _ := by simp only [Nat.cast_lt]
  eq_ofNat a b _ _ := by simp only [Nat.cast_inj]

end Awk

end Thingino.Lib
