import Mathlib.Tactic.ComputeDegree
import Thingino.Lib.BinaryPoly
import Thingino.Lib.Bytes

/-! The field of 2⁸ elements as the Advanced Encryption Standard uses it.

A byte is a polynomial over the integers modulo two, its bit `i` the coefficient of
`X ^ i` (`poly`); the product of two bytes is the product of their polynomials modulo
`m` (`mul`). A program multiplies by doubling and adding: `n` doublings are a
multiplication by `X ^ n` (`poly_iterate`), and the product is the sum of the doublings
picked by the bits of the other factor (`mul_eq_comb`). The inverse of a byte is the
one other byte, if any, whose product with it is one. -/
namespace Thingino.Lib.Gf256
open Polynomial

/-- The modulus `x⁸ + x⁴ + x³ + x + 1`. -/
noncomputable def m : (ZMod 2)[X] := X ^ 8 + (X ^ 4 + X ^ 3 + X + 1)

/-- The byte with these bits, the lowest first. -/
def ofBits (f : Nat → Bool) : Byte := (BitVec.iunfoldr (fun i (_ : Unit) => ((), f i)) ()).2

def bit (b : Bool) : ZMod 2 := if b then 1 else 0

noncomputable def poly (b : Byte) : (ZMod 2)[X] := ∑ i ∈ Finset.range 8, C (bit (b.getLsbD i)) * X ^ i

noncomputable def ofPoly (p : (ZMod 2)[X]) : Byte := ofBits fun i => decide (p.coeff i = 1)

/-- The product. -/
noncomputable def mul (a b : Byte) : Byte := ofPoly ((poly a * poly b) %ₘ m)

/-! ### Bytes as polynomials -/

theorem bit_decide (c : ZMod 2) : bit (decide (c = 1)) = c := BinaryPoly.bit_decide c

theorem monic_m : m.Monic := by
  unfold m
  monicity!

theorem degree_m : m.degree = 8 := by
  unfold m
  compute_degree!

@[simp] theorem coeff_poly (b : Byte) (n : Nat) : (poly b).coeff n = bit (b.getLsbD n) := BinaryPoly.coeff_poly b n

theorem poly_injective : Function.Injective poly := BinaryPoly.poly_injective

theorem degree_poly_lt (b : Byte) : (poly b).degree < m.degree := by
  rw [degree_m]
  exact BinaryPoly.degree_poly_lt b

theorem poly_modByMonic (b : Byte) : poly b %ₘ m = poly b := (modByMonic_eq_self_iff monic_m).mpr (degree_poly_lt b)

theorem poly_xor (a b : Byte) : poly (a ^^^ b) = poly a + poly b := BinaryPoly.poly_xor a b

theorem poly_zero : poly 0#8 = 0 := BinaryPoly.poly_zero

theorem poly_one : poly 1#8 = 1 := by
  ext n
  rw [coeff_poly, coeff_one]
  match n with
  | 0 => rfl
  | n + 1 => simp [bit, BitVec.getLsbD_one]

theorem getLsbD_ofBits (f : Nat → Bool) (i : Nat) (h : i < 8) : (ofBits f).getLsbD i = f i :=
  BitVec.iunfoldr_getLsbD (i := ⟨i, h⟩) (fun _ => ()) fun _ => rfl

/-- A remainder is the polynomial of a byte. -/
theorem poly_ofPoly {p : (ZMod 2)[X]} (h : p.degree < m.degree) : poly (ofPoly p) = p := by
  rw [degree_m] at h
  ext n
  rw [coeff_poly, ofPoly]
  by_cases hn : n < 8
  · rw [getLsbD_ofBits _ _ hn, bit_decide]
  · rw [BitVec.getLsbD_of_ge _ _ (Nat.le_of_not_lt hn),
      (degree_lt_iff_coeff_zero p 8).mp h n (Nat.le_of_not_lt hn)]
    rfl

/-- What a product is. -/
theorem poly_mul (a b : Byte) : poly (mul a b) = (poly a * poly b) %ₘ m :=
  poly_ofPoly (degree_modByMonic_lt _ monic_m)

/-! ### The product -/

theorem comm (a b : Byte) : mul a b = mul b a := by
  rw [mul, mul, mul_comm (poly a)]

theorem assoc (a b c : Byte) : mul (mul a b) c = mul a (mul b c) := by
  apply poly_injective
  rw [poly_mul, poly_mul, poly_mul, poly_mul, ← poly_modByMonic c, ← poly_modByMonic a, ← mul_modByMonic,
    ← mul_modByMonic, poly_modByMonic, poly_modByMonic, mul_assoc]

theorem one_left (a : Byte) : mul 1#8 a = a := by
  apply poly_injective
  rw [poly_mul, poly_one, one_mul, poly_modByMonic]

theorem zero_left (a : Byte) : mul 0#8 a = 0#8 := by
  apply poly_injective
  rw [poly_mul, poly_zero, zero_mul, zero_modByMonic]

theorem xor_left (a b c : Byte) : mul (a ^^^ b) c = mul a c ^^^ mul b c := by
  apply poly_injective
  rw [poly_mul, poly_xor, poly_xor, poly_mul, poly_mul, add_mul, add_modByMonic]

/-! ### Doubling and adding -/

/-- Multiplication by `x`: a shift, reduced when a bit falls off. -/
def xTimes (b : Byte) : Byte := (b <<< 1) ^^^ (if b.getLsbD 7 then 0x1b#8 else 0#8)

theorem poly_reduction : poly 0x1b#8 = X ^ 4 + X ^ 3 + X + 1 := by
  simp only [poly, Finset.sum_range_succ, Finset.sum_range_zero]
  simp [bit]
  ring

theorem m_eq : m = BinaryPoly.modulus 0x1b#8 := by
  rw [m, ← poly_reduction]
  rfl

/-- Doublings are multiplications by `X`. -/
theorem poly_iterate (a : Byte) (n : Nat) : poly (xTimes^[n] a) = (X ^ n * poly a) %ₘ m := by
  rw [m_eq]
  exact BinaryPoly.poly_iterate_mulX 0x1b#8 (by decide) a n

/-- The sum of the doublings of `a` over the first `n` positions where `b` is one. -/
def comb (a b : Byte) : Nat → Byte
  | 0 => 0#8
  | i + 1 => if b.getLsbD i then comb a b i ^^^ xTimes^[i] a else comb a b i

theorem poly_comb (a b : Byte) (n : Nat) :
    poly (comb a b n) = (poly a * ∑ i ∈ Finset.range n, C (bit (b.getLsbD i)) * X ^ i) %ₘ m := by
  induction n with
  | zero => rw [comb, poly_zero, Finset.sum_range_zero, mul_zero, zero_modByMonic]
  | succ n ih =>
    rw [Finset.sum_range_succ, mul_add, add_modByMonic, ← ih, comb]
    cases b.getLsbD n
    · simp [bit]
    · rw [if_pos rfl, poly_xor, poly_iterate, show C (bit true) = 1 from C_1, one_mul, mul_comm (poly a)]

/-- The product by doubling and adding. -/
theorem mul_eq_comb (a b : Byte) : mul a b = comb a b 8 := by
  apply poly_injective
  rw [poly_mul, poly_comb, ← poly]

/-! ### Inverses -/

open scoped Classical in
/-- The byte whose product with `b` is one; zero when there is none. -/
noncomputable def inv (b : Byte) : Byte := if h : ∃ c, mul b c = 1#8 then h.choose else 0#8

theorem inv_eq {b c : Byte} (h : mul b c = 1#8) : inv b = c := by
  have hex : ∃ c, mul b c = 1#8 := ⟨c, h⟩
  rw [inv, dif_pos hex]
  calc hex.choose = mul 1#8 hex.choose := (one_left _).symm
    _ = mul (mul c b) hex.choose := by rw [comm c b, h]
    _ = mul c (mul b hex.choose) := assoc ..
    _ = mul 1#8 c := by rw [hex.choose_spec, comm]
    _ = c := one_left c

theorem inv_zero : inv 0#8 = 0#8 := by
  have hnone : ¬ ∃ c, mul 0#8 c = 1#8 := by
    rintro ⟨c, hc⟩
    rw [zero_left] at hc
    exact absurd hc (by decide)
  rw [inv, dif_neg hnone]

end Thingino.Lib.Gf256
