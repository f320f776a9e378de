import Thingino.Crypto.AesInverse
import Thingino.Lib.Fips197
import Thingino.Lib.Gf128

/-! Software AES is the cipher of FIPS 197.

The doubling of the code is the one of the field and its `gmul` the product
(`gmul_eq_mul`). The table `sbox` holds the affine image of an inverse at every place:
undoing the affine map on the entry for `x` gives a byte whose product with `x` is one
(`subByte_eq_sBox`). A round-key word is the schedule's word, most significant byte
first (`bytesOf_swKeyExpand`), the four unrolled column formulas are the matrix, and so
the rounds agree one by one (`toState_encryptRounds`). -/
namespace Thingino.Crypto
open Lib

/-! ### The field -/

theorem xtime_eq (x : Byte) : xtime x = Gf256.xTimes x := rfl

/-- The loop of `gmul`: the sum so far, the doubled factor, the bits still to come. -/
theorem gmul_loop (a b : Byte) (n : Nat) :
    (List.range n).foldl (fun s _ => gmulStep s) (0#8, a, b) =
      (Gf256.comb a b n, Gf256.xTimes^[n] a, b >>> n) := by
  induction n with
  | zero => simp [Gf256.comb]
  | succ n ih =>
    have hbit : (b >>> n).getLsbD 0 = b.getLsbD n := by rw [BitVec.getLsbD_ushiftRight, Nat.add_zero]
    have hdouble (x : Byte) : (if x.getLsbD 7 then (x <<< 1) ^^^ 0x1b#8 else x <<< 1) = Gf256.xTimes x := by
      rw [Gf256.xTimes]
      cases x.getLsbD 7 <;> simp
    rw [List.range_succ, List.foldl_append, ih, List.foldl_cons, List.foldl_nil, gmulStep]
    rw [hbit, hdouble, ← BitVec.shiftRight_add, Function.iterate_succ_apply', Gf256.comb]

theorem gmul_eq_mul (a b : Byte) : gmul a b = Gf256.mul a b := by
  rw [gmul, gmul_loop, Gf256.mul_eq_comb]

theorem mul_two (x : Byte) : Gf256.mul 0x02#8 x = xtime x := by
  rw [Gf256.comm, Gf256.mul_eq_comb]
  simp [Gf256.comb, xtime_eq]

theorem mul_three (x : Byte) : Gf256.mul 0x03#8 x = xtime x ^^^ x := by
  rw [show 0x03#8 = 0x02#8 ^^^ 0x01#8 from rfl, Gf256.xor_left, mul_two, Gf256.one_left]

/-! ### The substitution -/

/-- The inverse of the affine map: bit `i` from the bits `i + 2`, `i + 5` and `i + 7`. -/
def unaffine (b : Byte) : Byte :=
  Gf256.ofBits fun i => b.getLsbD ((i + 2) % 8) ^^ b.getLsbD ((i + 5) % 8) ^^ b.getLsbD ((i + 7) % 8) ^^
    (0x05#8).getLsbD i

theorem affine_unaffine : ∀ b : Byte, Fips197.affine (unaffine b) = b := by decide +kernel

/-- Every entry of the table, the affine map undone, against its index. -/
theorem gmul_sbox : ∀ x : Byte, x = 0#8 ∨ gmul x (unaffine (subByte x)) = 1#8 := by decide +kernel

theorem subByte_eq_sBox (x : Byte) : subByte x = Fips197.sBox x := by
  obtain h0 | hinv := gmul_sbox x
  · rw [h0, Fips197.sBox_zero]
    decide +kernel
  · rw [gmul_eq_mul] at hinv
    rw [Fips197.sBox_eq hinv, affine_unaffine]

/-! ### Words -/

/-- The bytes of a 32-bit word, the most significant first. -/
def bytesOf (w : Word) : Fips197.Word := fun j => (w >>> (24 - 8 * j.val)).setWidth 8

/-- Four bytes put together are taken apart again. -/
theorem bytesOf_pack (a b c d : Byte) :
    bytesOf ((a.setWidth 32 <<< 24) ||| (b.setWidth 32 <<< 16) ||| (c.setWidth 32 <<< 8) ||| d.setWidth 32) =
      ![a, b, c, d] := by
  funext j
  apply BitVec.eq_of_getLsbD_eq
  intro i hi
  fin_cases j <;> simp [bytesOf] <;> grind

theorem bytesOf_load32Be (f : Nat → Byte) : bytesOf (load32Be f) = fun j => f j.val := by
  rw [load32Be, bytesOf_pack]
  funext j
  fin_cases j <;> rfl

theorem bytesOf_xor (v w : Word) : bytesOf (v ^^^ w) = Fips197.xorWord (bytesOf v) (bytesOf w) := by
  funext j
  apply BitVec.eq_of_getLsbD_eq
  intro i hi
  simp [bytesOf, Fips197.xorWord, hi]

theorem bytesOf_subWord (w : Word) : bytesOf (subWord w) = Fips197.subWord (bytesOf w) := by
  rw [subWord, bytesOf_pack]
  funext j
  fin_cases j <;> simp [bytesOf, Fips197.subWord, subByte_eq_sBox]

theorem bytesOf_rotWord (w : Word) : bytesOf (rotWord w) = Fips197.rotWord (bytesOf w) := by
  funext j
  apply BitVec.eq_of_getLsbD_eq
  intro i hi
  fin_cases j <;> simp [bytesOf, rotWord, Fips197.rotWord, hi] <;> grind

theorem bytesOf_rcon (j : Nat) (h1 : 1 ≤ j) (h10 : j ≤ 10) :
    bytesOf ((rcon.getD j 0#8).setWidth 32 <<< 24) = Fips197.rcon j := by
  have hpack := bytesOf_pack (rcon.getD j 0#8) 0#8 0#8 0#8
  simp only [BitVec.setWidth_zero, BitVec.zero_shiftLeft, BitVec.or_zero] at hpack
  rw [hpack, Fips197.rcon]
  congr 1
  interval_cases j <;> simp only [Fips197.xPower, mul_two, rcon] <;> decide

/-! ### The key schedule -/

/-- The first `n` words are those of the schedule `W`. -/
def Holds (rk : Vector Word 68) (W : Nat → Fips197.Word) (n : Nat) : Prop :=
  ∀ i, i < n → bytesOf (rk.getD i 0#32) = W i

/-- Words stored one after another, each right when the ones before it are. -/
theorem holds_fold (f : Vector Word 68 → Nat → Word) (W : Nat → Fips197.Word) (n k : Nat) (hk : n + k ≤ 68)
    (hf : ∀ i rk, n ≤ i → i < n + k → Holds rk W i → bytesOf (f rk i) = W i) (rk : Vector Word 68) (h : Holds rk W n) :
    Holds ((List.range' n k).foldl (fun rk i => rk.setIfInBounds i (f rk i)) rk) W (n + k) := by
  induction k with
  | zero => exact h
  | succ k ih =>
    have hprev := ih (by omega) fun i rk hi hik => hf i rk hi (by omega)
    simp only [List.range'_concat, List.foldl_append, List.foldl_cons, List.foldl_nil, Nat.one_mul]
    intro i hi
    rw [getD_setIfInBounds _ _ _ _ _ (by omega)]
    by_cases heq : n + k = i
    · subst heq
      rw [if_pos rfl]
      exact hf (n + k) _ (by omega) (by omega) hprev
    · rw [if_neg heq]
      exact hprev i (by omega)

theorem bytesOf_expandWord (size : Fips197.KeySize) (key : Nat → Byte) (rk : Vector Word 68) (i : Nat)
    (hi : size.nk ≤ i) (hlt : i < 4 * (size.nr + 1)) (h : Holds rk (Fips197.keyWord size key) i) :
    bytesOf (expandWord size.nk rk i) = Fips197.keyWord size key i := by
  have hpos := size.nk_pos
  have hround : 1 ≤ i / size.nk := (Nat.le_div_iff_mul_le hpos).mpr (by omega)
  have hrounds : i / size.nk ≤ 10 := by
    cases size <;> simp only [Fips197.KeySize.nk, Fips197.KeySize.nr] at hlt ⊢ <;> omega
  rw [expandWord, bytesOf_xor, h (i - size.nk) (by omega), Fips197.keyWord_ge hi]
  refine congrArg _ ?_
  by_cases h0 : i % size.nk = 0
  · rw [if_pos h0, if_pos h0, bytesOf_xor, bytesOf_subWord, bytesOf_rotWord, h (i - 1) (by omega),
      bytesOf_rcon _ hround hrounds]
  · rw [if_neg h0, if_neg h0]
    by_cases h4 : 6 < size.nk ∧ i % size.nk = 4
    · rw [if_pos h4, if_pos h4, bytesOf_subWord, h (i - 1) (by omega)]
    · rw [if_neg h4, if_neg h4, h (i - 1) (by omega)]

/-- `sw_key_expand` fills `rk` with the schedule of the standard. -/
theorem bytesOf_swKeyExpand (size : Fips197.KeySize) (rk : Vector Word 68) (key : Nat → Byte) :
    Holds (swKeyExpand rk key size.bits) (Fips197.keyWord size key) (4 * (size.nr + 1)) := by
  have hbits : size.bits / 32 = size.nk := Nat.mul_div_cancel_left _ (by decide)
  have hrounds : 4 * (size.nr + 1) ≤ 68 := by cases size <;> decide
  have hnk : size.nk ≤ 4 * (size.nr + 1) := by cases size <;> decide
  have hkey := holds_fold (fun _ i => load32Be fun j => key (4 * i + j)) (Fips197.keyWord size key) 0 size.nk
    (by omega)
    (fun i _ _ hi _ => by
      rw [bytesOf_load32Be, Fips197.keyWord_lt (by omega)])
    rk (fun i hi => absurd hi (Nat.not_lt_zero i))
  rw [Nat.zero_add, ← List.range_eq_range'] at hkey
  have hrest := holds_fold (expandWord size.nk) (Fips197.keyWord size key) size.nk (4 * (size.nr + 1) - size.nk)
    (by omega) (fun i rk hi hlt h => bytesOf_expandWord size key rk i hi (by omega) h) _ hkey
  rw [swKeyExpand, hbits, ← size.nr_eq]
  intro i hi
  exact hrest i (by omega)

/-! ### The rounds -/

theorem toState_subBytes (s : Block) :
    Fips197.toState (s.map subByte) = Fips197.subBytes (Fips197.toState s) := by
  funext r c
  simp only [Fips197.toState, Fips197.subBytes, Vector.getElem_map, subByte_eq_sBox]

theorem toState_shiftRows (s : Block) :
    Fips197.toState (shiftRows s) = Fips197.shiftRows (Fips197.toState s) := by
  funext r c
  fin_cases r <;> fin_cases c <;> rfl

theorem toState_mixColumns (s : Block) :
    Fips197.toState (eachColumn mixColumn s) = Fips197.mixColumns (Fips197.toState s) := by
  funext r c
  have hr := r.isLt
  have hc := c.isLt
  have hdiv : (r.val + 4 * c.val) / 4 = c.val := by omega
  have hmod : (r.val + 4 * c.val) % 4 = r.val := by omega
  have h0 : Fips197.toState s 0 c = s[4 * c.val] := by simp [Fips197.toState]
  have h1 : Fips197.toState s 1 c = s[4 * c.val + 1] := by simp [Fips197.toState, Nat.add_comm]
  have h2 : Fips197.toState s 2 c = s[4 * c.val + 2] := by simp [Fips197.toState, Nat.add_comm]
  have h3 : Fips197.toState s 3 c = s[4 * c.val + 3] := by simp [Fips197.toState, Nat.add_comm]
  rw [Fips197.mixColumns, h0, h1, h2, h3, Fips197.toState]
  simp only [getElem_eachColumn, hdiv, hmod]
  fin_cases r <;>
    simp [mixColumn, Fips197.coefficient, mul_two, mul_three, Gf256.one_left] <;> ac_rfl

theorem getElem_addRoundKey (rk : Vector Word 68) (round : Nat) (s : Block) (i : Nat) (h : i < 16) :
    (addRoundKey rk round s)[i] =
      s[i] ^^^ (rk.getD (round * 4 + i / 4) 0#32 >>> (24 - 8 * (i % 4))).setWidth 8 := by
  simp [addRoundKey]

theorem toState_addRoundKey {rk : Vector Word 68} {W : Nat → Fips197.Word} {n : Nat} (h : Holds rk W n) (round : Nat)
    (hround : 4 * round + 4 ≤ n) (s : Block) :
    Fips197.toState (addRoundKey rk round s) = Fips197.addRoundKey W round (Fips197.toState s) := by
  funext r c
  have hr := r.isLt
  have hc := c.isLt
  have hdiv : (r.val + 4 * c.val) / 4 = c.val := by omega
  have hmod : (r.val + 4 * c.val) % 4 = r.val := by omega
  have hword : W (4 * round + c.val) r = (rk.getD (4 * round + c.val) 0#32 >>> (24 - 8 * r.val)).setWidth 8 :=
    (congrFun (h (4 * round + c.val) (by omega)) r).symm
  rw [Fips197.addRoundKey, hword, Fips197.toState, getElem_addRoundKey, hdiv, hmod, Nat.mul_comm round 4,
    Fips197.toState]

theorem toState_encryptRounds {rk : Vector Word 68} {W : Nat → Fips197.Word} {nr : Nat} (h : Holds rk W (4 * (nr + 1)))
    (b : Block) (k : Nat) (hk : k < nr) :
    Fips197.toState (encryptRounds rk nr b k) = Fips197.rounds W (Fips197.toState b) k := by
  induction k with
  | zero => exact toState_addRoundKey h 0 (by omega) b
  | succ k ih =>
    rw [encryptRounds_succ, toState_addRoundKey h (k + 1) (by omega), unkeyed, if_pos hk, toState_mixColumns,
      toState_shiftRows, toState_subBytes, ih (by omega), Fips197.rounds]

/-- The rounds and the last one without the columns. -/
theorem swEncryptBlock_eq_cipher (size : Fips197.KeySize) (rk : Vector Word 68) (key : Nat → Byte) (b : Block) :
    swEncryptBlock (swKeyExpand rk key size.bits) size.nr b = Fips197.cipher size key b := by
  have h := bytesOf_swKeyExpand size rk key
  obtain ⟨k, hk⟩ : ∃ k, size.nr = k + 1 := by cases size <;> exact ⟨_, rfl⟩
  rw [Fips197.cipher, hk, ← Fips197.ofState_toState (swEncryptBlock _ _ b), swEncryptBlock]
  rw [hk] at h
  rw [encryptRounds_succ, toState_addRoundKey h (k + 1) (by omega), unkeyed, if_neg (Nat.lt_irrefl _),
    toState_shiftRows, toState_subBytes, toState_encryptRounds h b k (Nat.lt_succ_self k), Nat.add_sub_cancel]

/-! ### Both ways -/

theorem finite_block : Finite Block :=
  Finite.of_injective (fun b : Block => b.bits.toFin) fun a b h => by
    rw [← Block.ofBits_bits a, BitVec.toFin_inj.mp h, Block.ofBits_bits]

/-- What is undone on finitely many blocks undoes in turn. -/
theorem encrypt_decrypt (rk : Vector Word 68) (nr : Nat) (b : Block) :
    swEncryptBlock rk nr (swDecryptBlock rk nr b) = b := by
  have : Finite Block := finite_block
  have hleft : Function.LeftInverse (swDecryptBlock rk nr) (swEncryptBlock rk nr) := decrypt_encrypt rk nr
  obtain ⟨a, rfl⟩ := Finite.surjective_of_injective hleft.injective b
  rw [hleft a]

/-- **Software AES is AES**, for each key size, whatever `rk` held before, and its two
directions are inverse to each other. -/
theorem sw_aes_standard (size : Fips197.KeySize) (old : Vector Word 68) (key : Nat → Byte) (b : Block) :
    let rk := swKeyExpand old key size.bits
    let nr := size.bits / 32 + 6
    swEncryptBlock rk nr b = Fips197.cipher size key b ∧ swDecryptBlock rk nr (swEncryptBlock rk nr b) = b ∧
      swEncryptBlock rk nr (swDecryptBlock rk nr b) = b := by
  intro rk nr
  have hnr : nr = size.nr := by
    rw [size.nr_eq]
    exact congrArg (· + 6) (Nat.mul_div_cancel_left _ (by decide))
  refine ⟨?_, decrypt_encrypt rk nr b, encrypt_decrypt rk nr b⟩
  rw [hnr]
  exact swEncryptBlock_eq_cipher size old key b

end Thingino.Crypto
