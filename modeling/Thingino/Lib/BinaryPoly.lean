import Mathlib.Algebra.Field.ZMod
import Mathlib.Algebra.Polynomial.FieldDivision

/-! Bit vectors as polynomials over the integers modulo two.

Bit `i` of a vector is the coefficient of `X ^ i` (`poly`), so a vector of `w` bits is a
polynomial of degree below `w`, and the sum of two is their exclusive or. Modulo a
polynomial `X ^ w + poly r` the product with `X` is a shift by one place with `r` added
when a bit falls off (`mulX`, `poly_mulX`), and a power of `X` is as many of these
(`poly_iterate_mulX`). -/
namespace Thingino.Lib.BinaryPoly
open Polynomial

def bit (b : Bool) : ZMod 2 := if b then 1 else 0

theorem bit_xor (a b : Bool) : bit (a ^^ b) = bit a + bit b := by
  cases a <;> cases b <;> rfl

theorem bit_decide : ∀ c : ZMod 2, bit (decide (c = 1)) = c := by decide

theorem bit_injective : Function.Injective bit := by
  intro a b h
  cases a <;> cases b
  · rfl
  · exact absurd h (by decide)
  · exact absurd h (by decide)
  · rfl

section Poly
variable {w : Nat}

noncomputable def poly (v : BitVec w) : (ZMod 2)[X] := ∑ i ∈ Finset.range w, C (bit (v.getLsbD i)) * X ^ i

/-- The vector of the coefficients below `X ^ w`. -/
noncomputable def ofPoly (p : (ZMod 2)[X]) : BitVec w :=
  (BitVec.iunfoldr (fun i (_ : Unit) => ((), decide (p.coeff i = 1))) ()).2

@[simp] theorem coeff_poly (v : BitVec w) (n : Nat) : (poly v).coeff n = bit (v.getLsbD n) := by
  simp only [poly, finsetSum_coeff, coeff_C_mul_X_pow, Finset.sum_ite_eq, Finset.mem_range]
  by_cases hn : n < w
  · rw [if_pos hn]
  · rw [if_neg hn, BitVec.getLsbD_of_ge v n (Nat.le_of_not_lt hn)]
    rfl

theorem poly_injective : Function.Injective (poly : BitVec w → (ZMod 2)[X]) := by
  intro a b h
  apply BitVec.eq_of_getLsbD_eq
  intro i _
  apply bit_injective
  rw [← coeff_poly, ← coeff_poly, h]

theorem degree_poly_lt (v : BitVec w) : (poly v).degree < w := by
  apply (degree_lt_iff_coeff_zero _ w).mpr
  intro n hn
  rw [coeff_poly, BitVec.getLsbD_of_ge v n hn]
  rfl

/-- A polynomial that fits is the polynomial of a vector. -/
theorem poly_ofPoly {p : (ZMod 2)[X]} (h : p.degree < w) : poly (ofPoly p : BitVec w) = p := by
  ext n
  rw [coeff_poly, ofPoly]
  by_cases hn : n < w
  · rw [BitVec.iunfoldr_getLsbD (i := ⟨n, hn⟩) (fun _ => ()) fun _ => rfl, bit_decide]
  · rw [BitVec.getLsbD_of_ge _ _ (Nat.le_of_not_lt hn),
      (degree_lt_iff_coeff_zero p w).mp h n (Nat.le_of_not_lt hn)]
    rfl

theorem poly_xor (a b : BitVec w) : poly (a ^^^ b) = poly a + poly b := by
  ext n
  rw [coeff_add, coeff_poly, coeff_poly, coeff_poly, BitVec.getLsbD_xor, bit_xor]

theorem poly_zero : poly (0#w) = 0 := by
  ext n
  rw [coeff_poly, BitVec.getLsbD_zero, coeff_zero]
  rfl

/-- More room changes nothing. -/
theorem poly_setWidth {w' : Nat} (h : w ≤ w') (v : BitVec w) : poly (v.setWidth w') = poly v := by
  ext n
  rw [coeff_poly, coeff_poly, BitVec.getLsbD_setWidth]
  by_cases hn : n < w'
  · rw [decide_eq_true hn, Bool.true_and]
  · rw [decide_eq_false hn, Bool.false_and, BitVec.getLsbD_of_ge v n (by omega)]

/-- What the shift loses is the coefficient of `X ^ w`. -/
theorem poly_shiftLeft (hw : 0 < w) (v : BitVec w) :
    poly (v <<< 1) + C (bit (v.getLsbD (w - 1))) * X ^ w = X * poly v := by
  ext n
  rw [coeff_add, coeff_poly, coeff_C_mul_X_pow]
  match n with
  | 0 => simp [bit, hw.ne]
  | n + 1 =>
    rw [coeff_X_mul, coeff_poly]
    obtain hlt | heq | hgt := Nat.lt_trichotomy n (w - 1)
    · rw [if_neg (by omega), add_zero, BitVec.getLsbD_shiftLeft, decide_eq_true (show n + 1 < w by omega)]
      rfl
    · subst heq
      rw [Nat.sub_add_cancel hw, if_pos rfl, BitVec.getLsbD_of_ge _ _ (Nat.le_refl w)]
      exact zero_add _
    · rw [if_neg (by omega), add_zero, BitVec.getLsbD_of_ge v n (by omega), BitVec.getLsbD_of_ge _ _ (by omega)]

end Poly

/-! ### Modulo `X ^ w + poly r` -/

section Modulus
variable {w : Nat} (r : BitVec w)

noncomputable def modulus : (ZMod 2)[X] := X ^ w + poly r

theorem monic_modulus : (modulus r).Monic := monic_X_pow_add (degree_poly_lt r)

theorem degree_modulus : (modulus r).degree = w := by
  rw [modulus, degree_add_eq_left_of_degree_lt, degree_X_pow]
  rw [degree_X_pow]
  exact degree_poly_lt r

theorem poly_modByMonic (v : BitVec w) : poly v %ₘ modulus r = poly v :=
  (modByMonic_eq_self_iff (monic_modulus r)).mpr ((degree_modulus r).symm ▸ degree_poly_lt v)

/-- A remainder is the polynomial of a vector. -/
theorem poly_ofPoly_mod (p : (ZMod 2)[X]) : poly (ofPoly (p %ₘ modulus r) : BitVec w) = p %ₘ modulus r :=
  poly_ofPoly ((degree_modulus r) ▸ degree_modByMonic_lt p (monic_modulus r))

/-- One place up, `r` added when a bit falls off. -/
def mulX (v : BitVec w) : BitVec w := (v <<< 1) ^^^ (if v.getLsbD (w - 1) then r else 0#w)

theorem poly_mulX (hw : 0 < w) (v : BitVec w) : poly (mulX r v) = (X * poly v) %ₘ modulus r := by
  refine (div_modByMonic_unique (C (bit (v.getLsbD (w - 1)))) _ (monic_modulus r)
    ⟨?_, (degree_modulus r).symm ▸ degree_poly_lt _⟩).2.symm
  rw [← poly_shiftLeft hw, mulX, poly_xor]
  cases v.getLsbD (w - 1)
  · simp [bit, poly_zero]
  · have hcancel : poly r + poly r = 0 := by rw [← poly_xor, BitVec.xor_self, poly_zero]
    have hone : C (bit true) = (1 : (ZMod 2)[X]) := C_1
    calc poly (v <<< 1) + poly r + modulus r * C (bit true)
        = poly (v <<< 1) + X ^ w + (poly r + poly r) := by
          rw [hone, modulus]
          ring
      _ = poly (v <<< 1) + C (bit true) * X ^ w := by
          rw [hcancel, add_zero, hone, one_mul]

theorem poly_iterate_mulX (hw : 0 < w) (v : BitVec w) (n : Nat) :
    poly ((mulX r)^[n] v) = (X ^ n * poly v) %ₘ modulus r := by
  induction n with
  | zero => rw [pow_zero, one_mul, poly_modByMonic, Function.iterate_zero_apply]
  | succ n ih =>
    have hagain : (X ^ n * poly v) %ₘ modulus r %ₘ modulus r = (X ^ n * poly v) %ₘ modulus r := by
      rw [← ih, poly_modByMonic]
    rw [Function.iterate_succ_apply', poly_mulX r hw, ih, mul_modByMonic, hagain, ← mul_modByMonic, ← mul_assoc,
      ← pow_succ']

end Modulus

end Thingino.Lib.BinaryPoly
