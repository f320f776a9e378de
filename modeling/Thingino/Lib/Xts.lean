import Thingino.Lib.BinaryPoly
import Thingino.Lib.Gf128

/-! XTS, the mode of IEEE 1619, over an arbitrary block cipher.

A data unit is a string of at least one block. Its block `j` is enciphered under the
tweak `T ⊗ α ^ j` (`tweak`), added before and after (`tweaked`); the product is that of
the field of 2¹²⁸ elements in the order of the standard, the lowest bit of the first
byte being the constant term. When the string does not end at a block boundary the
short rest takes the head of the last whole ciphertext block, which becomes the tail of
the output (`steal`); decryption makes the two last calls in the other order. Nothing
but a cipher for every position, and its inverse, is needed to undo it
(`decrypt_encrypt`). -/
namespace Thingino.Lib.Xts
open Polynomial BinaryPoly

/-! ### The tweak -/

/-- The modulus `x¹²⁸ + x⁷ + x² + x + 1`. -/
noncomputable def m : (ZMod 2)[X] := X ^ 128 + (X ^ 7 + X ^ 2 + X + 1)

/-- The 128 bits of a block, those of the first byte lowest. -/
def bits (b : Block) : BitVec 128 := Block.bits b.reverse

def ofBits (v : BitVec 128) : Block := (Block.ofBits v).reverse

/-- `T ⊗ α ^ j`. -/
noncomputable def tweak (T : Block) (j : Nat) : Block := ofBits (ofPoly ((poly (bits T) * X ^ j) %ₘ m))

theorem ofBits_bits (b : Block) : ofBits (bits b) = b := by
  rw [ofBits, bits, Block.ofBits_bits, Vector.reverse_reverse]

theorem bits_ofBits (v : BitVec 128) : bits (ofBits v) = v := by
  rw [ofBits, bits, Vector.reverse_reverse, Block.bits_ofBits]

theorem getLsbD_bits (b : Block) (q r : Nat) (hq : q < 16) (hr : r < 8) :
    (bits b).getLsbD (8 * q + r) = b[q].getLsbD r := by
  have hback : 16 - 1 - (15 - q) = q := by omega
  simp only [bits, Block.getLsbD_bits _ q r hq hr, Vector.getElem_reverse, hback]

theorem poly_reduction : poly 0x87#128 = X ^ 7 + X ^ 2 + X + 1 := by
  have hbyte : poly 0x87#8 = X ^ 7 + X ^ 2 + X + 1 := by
    simp only [poly, Finset.sum_range_succ, Finset.sum_range_zero]
    simp [bit]
    ring
  rw [← hbyte]
  exact poly_setWidth (by decide) 0x87#8

theorem m_eq : m = modulus 0x87#128 := by
  unfold modulus
  rw [poly_reduction]
  unfold m
  rfl

/-- The tweak of a block is as many multiplications by `α` as there are blocks before it. -/
theorem bits_tweak (T : Block) (j : Nat) : bits (tweak T j) = (mulX 0x87#128)^[j] (bits T) := by
  apply poly_injective
  rw [tweak, bits_ofBits, m_eq, poly_ofPoly_mod, poly_iterate_mulX _ (by decide), mul_comm]

/-- A block under a cipher, the tweak of its position added before and after. -/
def tweaked (E : Block → Block) (T : Nat → Block) (j : Nat) (p : Block) : Block :=
  Block.xor (E (Block.xor p (T j))) (T j)

theorem tweaked_undo {E D : Block → Block} (h : ∀ b, D (E b) = b) (T : Nat → Block) (j : Nat) (p : Block) :
    tweaked D T j (tweaked E T j p) = p := by
  rw [tweaked, tweaked, Block.xor_cancel, h, Block.xor_cancel]

/-! ### Ciphertext stealing -/

/-- The first `n` blocks of a string, block `q` under `C q`. -/
def whole (C : Nat → Block → Block) (n : Nat) (P : List Byte) : List Byte :=
  ofBlocks ((List.range n).map fun q => C q (Block.ofList (P.drop (16 * q))))

/-- The last whole block and a shorter rest: the rest is filled up from the block under
`F` and goes under `G`, what was not used of the block follows it. -/
def steal (F G : Block → Block) (last : Block) (rest : List Byte) : List Byte :=
  let cc := (F last).toList
  (G (Block.ofList (rest ++ cc.drop rest.length))).toList ++ cc.take rest.length

def encrypt (C : Nat → Block → Block) (P : List Byte) : List Byte :=
  let m := P.length / 16
  if P.length % 16 = 0 then whole C m P
  else whole C (m - 1) P ++ steal (C (m - 1)) (C m) (Block.ofList (P.drop (16 * (m - 1)))) (P.drop (16 * m))

def decrypt (D : Nat → Block → Block) (P : List Byte) : List Byte :=
  let m := P.length / 16
  if P.length % 16 = 0 then whole D m P
  else whole D (m - 1) P ++ steal (D m) (D (m - 1)) (Block.ofList (P.drop (16 * (m - 1)))) (P.drop (16 * m))

@[simp] theorem length_whole (C : Nat → Block → Block) (n : Nat) (P : List Byte) : (whole C n P).length = 16 * n := by
  simp [whole]

theorem whole_succ (C : Nat → Block → Block) (n : Nat) (P : List Byte) :
    whole C (n + 1) P = whole C n P ++ (C n (Block.ofList (P.drop (16 * n)))).toList := by
  simp [whole, List.range_succ, ofBlocks_append, ofBlocks_cons]

theorem ofList_append (b : Block) (S : List Byte) : Block.ofList (b.toList ++ S) = b := by
  have hl : b.toList.length = 16 := Vector.length_toList
  rw [← Block.ofList_take, List.take_left' hl, Block.ofList_toList]

theorem toList_ofList_long (l : List Byte) (h : 16 ≤ l.length) : (Block.ofList l).toList = l.take 16 := by
  rw [← Block.ofList_take, Block.toList_ofList]
  rw [List.length_take]
  omega

section Undo
variable {C D : Nat → Block → Block}

theorem whole_undo (h : ∀ j b, D j (C j b) = b) (n : Nat) (P S : List Byte) (hn : 16 * n ≤ P.length) :
    whole D n (whole C n P ++ S) = P.take (16 * n) := by
  induction n generalizing S with
  | zero => rfl
  | succ n ih =>
    have hblock : 16 ≤ (P.drop (16 * n)).length := by
      rw [List.length_drop]
      omega
    rw [whole_succ, whole_succ, List.append_assoc, ih _ (by omega), List.drop_left' (length_whole C n P),
      ofList_append, h, toList_ofList_long _ hblock, ← List.take_add, Nat.mul_succ]

theorem length_steal (F G : Block → Block) (last : Block) (rest : List Byte) (hr : rest.length ≤ 16) :
    (steal F G last rest).length = 16 + rest.length := by
  simp [steal, hr]

theorem steal_undo {F F' G G' : Block → Block} (hF : ∀ b, F' (F b) = b) (hG : ∀ b, G' (G b) = b) (last : Block)
    (rest : List Byte) (hr : rest.length ≤ 16) :
    steal G' F' (Block.ofList (steal F G last rest)) ((steal F G last rest).drop 16) = last.toList ++ rest := by
  have hcc : (F last).toList.length = 16 := Vector.length_toList
  have htail : ((F last).toList.take rest.length).length = rest.length := by
    rw [List.length_take, hcc]
    omega
  have hfull : (rest ++ (F last).toList.drop rest.length).length = 16 := by
    rw [List.length_append, List.length_drop, hcc]
    omega
  have hdrop : (steal F G last rest).drop 16 = (F last).toList.take rest.length :=
    List.drop_left' Vector.length_toList
  have hfirst : Block.ofList (steal F G last rest) = G (Block.ofList (rest ++ (F last).toList.drop rest.length)) :=
    ofList_append _ _
  rw [hdrop, hfirst, steal, htail, hG, Block.toList_ofList _ hfull, List.drop_left, List.take_left,
    List.take_append_drop, Block.ofList_toList, hF]

theorem length_encrypt (C : Nat → Block → Block) (P : List Byte) (hP : 16 ≤ P.length) :
    (encrypt C P).length = P.length := by
  have hrest : (P.drop (16 * (P.length / 16))).length = P.length % 16 := by
    rw [List.length_drop]
    omega
  unfold encrypt
  split
  · rw [length_whole]
    omega
  · rw [List.length_append, length_whole, length_steal _ _ _ _ (by omega), hrest]
    omega

/-- Decryption returns what was encrypted, at every length from one block on. -/
theorem decrypt_encrypt (h : ∀ j b, D j (C j b) = b) (P : List Byte) (hP : 16 ≤ P.length) :
    decrypt D (encrypt C P) = P := by
  have hlen := length_encrypt C P hP
  unfold decrypt
  rw [hlen]
  by_cases h0 : P.length % 16 = 0
  · have hC : encrypt C P = whole C (P.length / 16) P ++ [] := by rw [encrypt, if_pos h0, List.append_nil]
    rw [if_pos h0, hC, whole_undo h _ P [] (by omega), List.take_of_length_le (by omega)]
  · obtain ⟨n, hn⟩ : ∃ n, P.length / 16 = n + 1 := ⟨P.length / 16 - 1, by omega⟩
    have hblock : 16 ≤ (P.drop (16 * n)).length := by
      rw [List.length_drop]
      omega
    have hrest : (P.drop (16 * (n + 1))).length ≤ 16 := by
      rw [List.length_drop]
      omega
    have hC : encrypt C P = whole C n P ++
        steal (C n) (C (n + 1)) (Block.ofList (P.drop (16 * n))) (P.drop (16 * (n + 1))) := by
      rw [encrypt, if_neg h0, hn, Nat.add_sub_cancel]
    have hlast (S : List Byte) : (whole C n P ++ S).drop (16 * n) = S := List.drop_left' (length_whole C n P)
    have hend (S : List Byte) : (whole C n P ++ S).drop (16 * (n + 1)) = S.drop 16 := by
      rw [Nat.mul_succ, ← List.drop_drop, hlast]
    have hjoin : (P.drop (16 * n)).take 16 ++ P.drop (16 * (n + 1)) = P.drop (16 * n) := by
      rw [Nat.mul_succ, ← List.drop_drop, List.take_append_drop]
    rw [if_neg h0, hn, Nat.add_sub_cancel, hC, whole_undo h _ P _ (by omega), hlast, hend,
      steal_undo (h n) (h (n + 1)) _ _ hrest, toList_ofList_long _ hblock, hjoin, List.take_append_drop]

end Undo

end Thingino.Lib.Xts
