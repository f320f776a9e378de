import Mathlib.Logic.Function.Iterate
import Mathlib.Tactic.IntervalCases
import Thingino.Lib.Bytes

/-! The field of 2¹²⁸ elements as Galois/Counter Mode uses it.

A block is a string of 128 bits, the first bit of its first byte on the left
(`Block.bits`). Multiplication is the bit-serial definition of NIST SP 800-38D,
section 6.3 (`mul`): the right operand is multiplied by `x` once per bit of the
left one (`mulX`) and added where that bit is one. Everything table-driven code
needs follows from the linearity of `mulX`: the product is a combination of the
powers `mulX^[i] H` (`mul_eq_comb`), a combination splits at any bit position
(`comb_add`), and a shift by four bits only has to look at the four bits that
fall off (`mulX_four`). -/
namespace Thingino.Lib

namespace Block

/-- The 128 bits of a block, the first byte on the left. -/
def bits (b : Block) : BitVec 128 :=
  b[0] ++ b[1] ++ b[2] ++ b[3] ++ b[4] ++ b[5] ++ b[6] ++ b[7] ++
    b[8] ++ b[9] ++ b[10] ++ b[11] ++ b[12] ++ b[13] ++ b[14] ++ b[15]

/-- The 16 bytes of a bit string. -/
def ofBits (v : BitVec 128) : Block := Vector.ofFn fun i => v.extractLsb' (8 * (15 - i)) 8

theorem getLsbD_bits (b : Block) (q r : Nat) (hq : q < 16) (hr : r < 8) :
    (bits b).getLsbD (8 * q + r) = b[15 - q].getLsbD r := by
  unfold bits
  interval_cases q <;> simp (disch := omega) only [BitVec.getLsbD_append, if_pos, if_neg] <;>
    exact congrArg _ (by omega)

theorem getElem_ofBits (v : BitVec 128) (i : Nat) (h : i < 16) :
    (ofBits v)[i] = v.extractLsb' (8 * (15 - i)) 8 := by
  simp [ofBits]

theorem ofBits_bits (b : Block) : ofBits (bits b) = b := by
  apply Vector.ext
  intro i h
  apply BitVec.eq_of_getLsbD_eq
  intro r hr
  rw [getElem_ofBits, BitVec.getLsbD_extractLsb', getLsbD_bits b (15 - i) r (by omega) hr]
  simp only [hr, decide_true, Bool.true_and]
  congr 2
  omega

theorem bits_ofBits (v : BitVec 128) : bits (ofBits v) = v := by
  apply BitVec.eq_of_getLsbD_eq
  intro k hk
  have hk' : k = 8 * (k / 8) + k % 8 := by omega
  rw [hk', getLsbD_bits _ (k / 8) (k % 8) (by omega) (by omega), getElem_ofBits,
    BitVec.getLsbD_extractLsb']
  have hr : k % 8 < 8 := by omega
  simp only [hr, decide_true, Bool.true_and]
  congr 1
  omega

theorem bits_xor (a b : Block) : bits (xor a b) = bits a ^^^ bits b := by
  apply BitVec.eq_of_getLsbD_eq
  intro k hk
  have hk' : k = 8 * (k / 8) + k % 8 := by omega
  rw [BitVec.getLsbD_xor, hk', getLsbD_bits _ _ _ (by omega) (by omega),
    getLsbD_bits _ _ _ (by omega) (by omega), getLsbD_bits _ _ _ (by omega) (by omega),
    getElem_xor, BitVec.getLsbD_xor]

theorem bits_zero : bits zero = 0#128 := by
  apply BitVec.eq_of_getLsbD_eq
  intro k hk
  have hk' : k = 8 * (k / 8) + k % 8 := by omega
  rw [hk', getLsbD_bits _ _ _ (by omega) (by omega), getElem_zero]
  simp

end Block

namespace Gf128

/-- The reduction constant: `11100001` on the left, then 120 zeros. -/
def R : BitVec 128 := 0xE1#128 <<< 120

/-- Multiplication by `x`: one step to the right, reduced when a bit falls off. -/
def mulX (v : BitVec 128) : BitVec 128 := (v >>> 1) ^^^ (if v.getLsbD 0 then R else 0#128)

/-- The `Z` and `V` of the standard's algorithm after `i` bits of `X`. -/
def mulState (X Y : BitVec 128) : Nat → BitVec 128 × BitVec 128
  | 0 => (0#128, Y)
  | i + 1 =>
    let (Z, V) := mulState X Y i
    (if X.getMsbD i then Z ^^^ V else Z, mulX V)

/-- The product `X · Y`. -/
def mul (X Y : BitVec 128) : BitVec 128 := (mulState X Y 128).1

theorem mulX_zero : mulX 0#128 = 0#128 := by decide

theorem mulX_xor (a b : BitVec 128) : mulX (a ^^^ b) = mulX a ^^^ mulX b := by
  unfold mulX
  apply BitVec.eq_of_getLsbD_eq
  intro k _
  simp only [BitVec.getLsbD_xor, BitVec.getLsbD_ushiftRight]
  cases ha : a.getLsbD 0 <;> cases hb : b.getLsbD 0 <;> simp [Bool.xor_left_comm, Bool.xor_comm]

theorem iterate_mulX_zero (n : Nat) : mulX^[n] 0#128 = 0#128 := Function.iterate_fixed mulX_zero n

theorem iterate_mulX_xor (n : Nat) (a b : BitVec 128) :
    mulX^[n] (a ^^^ b) = mulX^[n] a ^^^ mulX^[n] b := by
  induction n generalizing a b with
  | zero => rfl
  | succ n ih => rw [Function.iterate_succ_apply, mulX_xor, ih, Function.iterate_succ_apply,
      Function.iterate_succ_apply]

/-- The sum of `mulX^[i] H` over the first `n` positions where `bit` is one. -/
def comb (H : BitVec 128) (bit : Nat → Bool) : Nat → BitVec 128
  | 0 => 0#128
  | i + 1 => comb H bit i ^^^ (if bit i then mulX^[i] H else 0#128)

theorem mulState_eq (X Y : BitVec 128) (n : Nat) :
    mulState X Y n = (comb Y X.getMsbD n, mulX^[n] Y) := by
  induction n with
  | zero => rfl
  | succ n ih =>
    simp only [mulState, ih, comb, Function.iterate_succ_apply']
    cases X.getMsbD n <;> simp

theorem mul_eq_comb (X Y : BitVec 128) : mul X Y = comb Y X.getMsbD 128 := by
  rw [mul, mulState_eq]

/-- A combination splits at any position. -/
theorem comb_add (H : BitVec 128) (bit : Nat → Bool) (m n : Nat) :
    comb H bit (m + n) = comb H bit m ^^^ mulX^[m] (comb H (fun i => bit (m + i)) n) := by
  induction n with
  | zero =>
    rw [comb, iterate_mulX_zero]
    exact BitVec.xor_zero.symm
  | succ n ih =>
    rw [← Nat.add_assoc, comb, ih, comb, iterate_mulX_xor, BitVec.xor_assoc]
    congr 2
    cases bit (m + n)
    · exact (iterate_mulX_zero m).symm
    · simp only [if_true, Function.iterate_add_apply]

theorem comb_congr (H : BitVec 128) (f g : Nat → Bool) (n : Nat) (h : ∀ i, i < n → f i = g i) :
    comb H f n = comb H g n := by
  induction n with
  | zero => rfl
  | succ n ih => rw [comb, comb, ih fun i hi => h i (by omega), h n (by omega)]

/-- With no bit to fall off, multiplication by `x` is a plain shift. -/
theorem mulX_even (v : BitVec 128) (h : v.getLsbD 0 = false) : mulX v = v >>> 1 := by
  rw [mulX, h]
  exact BitVec.xor_zero

theorem mulX_four_even (v : BitVec 128) (h : ∀ k, k < 4 → v.getLsbD k = false) :
    mulX^[4] v = v >>> 4 := by
  have h1 : (v >>> 1).getLsbD 0 = false := by
    rw [BitVec.getLsbD_ushiftRight]; exact h 1 (by omega)
  have h2 : (v >>> 1 >>> 1).getLsbD 0 = false := by
    rw [BitVec.getLsbD_ushiftRight, BitVec.getLsbD_ushiftRight]; exact h 2 (by omega)
  have h3 : (v >>> 1 >>> 1 >>> 1).getLsbD 0 = false := by
    rw [BitVec.getLsbD_ushiftRight, BitVec.getLsbD_ushiftRight, BitVec.getLsbD_ushiftRight]
    exact h 3 (by omega)
  simp only [Function.iterate_succ_apply, Function.iterate_zero_apply]
  rw [mulX_even v (h 0 (by omega)), mulX_even _ h1, mulX_even _ h2, mulX_even _ h3,
    ← BitVec.shiftRight_add, ← BitVec.shiftRight_add, ← BitVec.shiftRight_add]

theorem getLsbD_fifteen {w : Nat} (k : Nat) (h4 : 4 ≤ w) : (15#w).getLsbD k = decide (k < 4) := by
  have h15 : 15 < 2 ^ w := calc
    15 < 2 ^ 4 := by decide
    _ ≤ 2 ^ w := Nat.pow_le_pow_right (by decide) h4
  rw [BitVec.getLsbD, BitVec.toNat_ofNat, Nat.mod_eq_of_lt h15]
  by_cases hk : k < 4
  · interval_cases k <;> rfl
  · rw [decide_eq_false hk]
    apply Nat.testBit_lt_two_pow
    calc
      15 < 2 ^ 4 := by decide
      _ ≤ 2 ^ k := Nat.pow_le_pow_right (by decide) (by omega)

/-- A shift by four bits, corrected for the four bits that fall off. -/
theorem mulX_four (v : BitVec 128) : mulX^[4] v = (v >>> 4) ^^^ mulX^[4] (v &&& 15#128) := by
  have hlow (k : Nat) : (15#128).getLsbD k = decide (k < 4) := getLsbD_fifteen k (by omega)
  have hsplit : v = (v &&& ~~~15#128) ^^^ (v &&& 15#128) := by
    apply BitVec.eq_of_getLsbD_eq
    intro k hk
    simp only [BitVec.getLsbD_xor, BitVec.getLsbD_and, BitVec.getLsbD_not, hk, decide_true,
      Bool.true_and]
    cases v.getLsbD k <;> cases (15#128).getLsbD k <;> rfl
  have hhigh : mulX^[4] (v &&& ~~~15#128) = v >>> 4 := by
    rw [mulX_four_even]
    · apply BitVec.eq_of_getLsbD_eq
      intro k _
      simp only [BitVec.getLsbD_ushiftRight, BitVec.getLsbD_and, BitVec.getLsbD_not, hlow]
      by_cases hk : 4 + k < 128
      · simp [hk]
      · rw [BitVec.getLsbD_of_ge _ _ (by omega)]; rfl
    · intro k hk
      simp only [BitVec.getLsbD_and, BitVec.getLsbD_not, hlow, hk, decide_true, Bool.not_true, Bool.and_false]
  conv_lhs => rw [hsplit, iterate_mulX_xor, hhigh]

end Gf128

end Thingino.Lib
