import Mathlib.Tactic.IntervalCases
import Thingino.Crypto.AesAlt

/-! Software decryption undoes software encryption, and the round keys are a
function of the key.

Each step of a round has its inverse (`invSub_sub`, `invShift_shift`,
`invMix_mix`, `addRoundKey_cancel`), and the decryption loop meets them in
reverse order (`decrypt_encrypt`), whatever the round keys hold. A schedule
written over an old one agrees with a fresh one on every word the cipher reads
(`swKeyExpand_congr`), so the permutation a key stands for does not depend on
what the context held before (`aesEncrypt`, `aesDecrypt`). -/
namespace Thingino.Crypto
open Lib

/-! ### The inverse of each step -/

theorem invSub_sub : ∀ x : Byte, invSubByte (subByte x) = x := by decide +kernel

theorem invShift_shift (s : Block) : invShiftRows (shiftRows s) = s := by
  apply Vector.ext
  intro i h
  interval_cases i <;> rfl

theorem addRoundKey_cancel (rk : Vector Word 68) (round : Nat) (s : Block) :
    addRoundKey rk round (addRoundKey rk round s) = s := by
  apply Vector.ext
  intro i h
  simp only [addRoundKey, Vector.getElem_ofFn, Fin.getElem_fin, BitVec.xor_assoc, BitVec.xor_self, BitVec.xor_zero]

/-! The column maps are additive, so a column is undone when its four unit
columns are; the multiplications involved run over 256 values each. -/

theorem xtime_xor (a b : Byte) : xtime (a ^^^ b) = xtime a ^^^ xtime b := by
  simp only [xtime, BitVec.shiftLeft_xor_distrib, BitVec.getLsbD_xor]
  cases a.getLsbD 7 <;> cases b.getLsbD 7
  · simp
  · simp; ac_rfl
  · simp; ac_rfl
  · simp only [Bool.true_bne, Bool.not_true, Bool.false_eq_true, if_false, if_true, BitVec.xor_zero]
    rw [BitVec.xor_comm (b <<< 1) 0x1b#8, BitVec.xor_assoc, ← BitVec.xor_assoc 0x1b#8 0x1b#8,
      BitVec.xor_self, BitVec.zero_xor]

/-- Multiplication by the four constants of the inverse map, as repeated doubling. -/
theorem gmul_constants : ∀ x : Byte,
    gmul x 9#8 = xtime (xtime (xtime x)) ^^^ x ∧
    gmul x 11#8 = xtime (xtime (xtime x)) ^^^ xtime x ^^^ x ∧
    gmul x 13#8 = xtime (xtime (xtime x)) ^^^ xtime (xtime x) ^^^ x ∧
    gmul x 14#8 = xtime (xtime (xtime x)) ^^^ xtime (xtime x) ^^^ xtime x := by decide +kernel

/-- Sum of two columns. -/
def xorColumn (v w : Vector Byte 4) : Vector Byte 4 := Vector.zipWith (· ^^^ ·) v w

theorem mixColumn_xor (a b c d a' b' c' d' : Byte) :
    mixColumn (a ^^^ a') (b ^^^ b') (c ^^^ c') (d ^^^ d') =
      xorColumn (mixColumn a b c d) (mixColumn a' b' c' d') := by
  apply Vector.ext
  intro i h
  interval_cases i <;> simp only [mixColumn, xorColumn, xtime_xor, Vector.getElem_zipWith] <;>
    simp <;> ac_rfl

theorem gmul_xor (a b k : Byte) (hk : k = 9#8 ∨ k = 11#8 ∨ k = 13#8 ∨ k = 14#8) :
    gmul (a ^^^ b) k = gmul a k ^^^ gmul b k := by
  obtain ⟨h9, h11, h13, h14⟩ := gmul_constants (a ^^^ b)
  obtain ⟨a9, a11, a13, a14⟩ := gmul_constants a
  obtain ⟨b9, b11, b13, b14⟩ := gmul_constants b
  rcases hk with rfl | rfl | rfl | rfl
  · rw [h9, a9, b9]; simp only [xtime_xor]; ac_rfl
  · rw [h11, a11, b11]; simp only [xtime_xor]; ac_rfl
  · rw [h13, a13, b13]; simp only [xtime_xor]; ac_rfl
  · rw [h14, a14, b14]; simp only [xtime_xor]; ac_rfl

theorem invMixColumn_xor (a b c d a' b' c' d' : Byte) :
    invMixColumn (a ^^^ a') (b ^^^ b') (c ^^^ c') (d ^^^ d') =
      xorColumn (invMixColumn a b c d) (invMixColumn a' b' c' d') := by
  have h9 (x y : Byte) := gmul_xor x y 9#8 (by simp)
  have h11 (x y : Byte) := gmul_xor x y 11#8 (by simp)
  have h13 (x y : Byte) := gmul_xor x y 13#8 (by simp)
  have h14 (x y : Byte) := gmul_xor x y 14#8 (by simp)
  apply Vector.ext
  intro i h
  interval_cases i <;>
    simp only [invMixColumn, xorColumn, h9, h11, h13, h14, Vector.getElem_zipWith] <;>
    simp <;> ac_rfl

/-- The inverse map on a column given as a vector. -/
def unmix (v : Vector Byte 4) : Vector Byte 4 := invMixColumn v[0] v[1] v[2] v[3]

theorem unmix_xor (v w : Vector Byte 4) : unmix (xorColumn v w) = xorColumn (unmix v) (unmix w) := by
  simp only [unmix, ← invMixColumn_xor]
  simp [xorColumn]

theorem xtime_zero : xtime 0#8 = 0#8 := by decide

/-- On a unit column the powers of `xtime` cancel in pairs. -/
theorem unmix_units (x : Byte) :
    unmix (mixColumn x 0#8 0#8 0#8) = #v[x, 0#8, 0#8, 0#8] ∧ unmix (mixColumn 0#8 x 0#8 0#8) = #v[0#8, x, 0#8, 0#8] ∧
    unmix (mixColumn 0#8 0#8 x 0#8) = #v[0#8, 0#8, x, 0#8] ∧
    unmix (mixColumn 0#8 0#8 0#8 x) = #v[0#8, 0#8, 0#8, x] := by
  have h9 (y : Byte) := (gmul_constants y).1
  have h11 (y : Byte) := (gmul_constants y).2.1
  have h13 (y : Byte) := (gmul_constants y).2.2.1
  have h14 (y : Byte) := (gmul_constants y).2.2.2
  refine ⟨?_, ?_, ?_, ?_⟩ <;>
  · apply Vector.ext
    intro i h
    interval_cases i <;> simp [unmix, mixColumn, invMixColumn, h9, h11, h13, h14, xtime_xor, xtime_zero] <;> grind

theorem unmix_mixColumn (a b c d : Byte) : unmix (mixColumn a b c d) = #v[a, b, c, d] := by
  have hsplit : mixColumn a b c d =
      xorColumn (xorColumn (mixColumn a 0#8 0#8 0#8) (mixColumn 0#8 b 0#8 0#8))
        (xorColumn (mixColumn 0#8 0#8 c 0#8) (mixColumn 0#8 0#8 0#8 d)) := by
    rw [← mixColumn_xor, ← mixColumn_xor, ← mixColumn_xor]
    simp
  rw [hsplit, unmix_xor, unmix_xor, unmix_xor, (unmix_units a).1, (unmix_units b).2.1,
    (unmix_units c).2.2.1, (unmix_units d).2.2.2]
  apply Vector.ext
  intro i h
  interval_cases i <;> simp [xorColumn]

/-- A column of the mixed state is the mixed column. -/
theorem eachColumn_column (s : Block) (j k : Nat) (hj : j < 4) (hk : k < 4) :
    (eachColumn mixColumn s)[4 * j + k] =
      (mixColumn s[4 * j] s[4 * j + 1] s[4 * j + 2] s[4 * j + 3])[k] := by
  rw [getElem_eachColumn]
  have h1 : (4 * j + k) / 4 = j := by omega
  have h2 : (4 * j + k) % 4 = k := by omega
  simp only [h1, h2]

theorem invMix_mix (s : Block) : eachColumn invMixColumn (eachColumn mixColumn s) = s := by
  apply Vector.ext
  intro i h
  obtain ⟨q, r, hq, hr, rfl⟩ : ∃ q r, q < 4 ∧ r < 4 ∧ i = 4 * q + r :=
    ⟨i / 4, i % 4, by omega, by omega, by omega⟩
  have h0 : (eachColumn mixColumn s)[4 * q] =
      (mixColumn s[4 * q] s[4 * q + 1] s[4 * q + 2] s[4 * q + 3])[0] := eachColumn_column s q 0 hq (by omega)
  have h1 := eachColumn_column s q 1 hq (by omega)
  have h2 := eachColumn_column s q 2 hq (by omega)
  have h3 := eachColumn_column s q 3 hq (by omega)
  have hdiv : (4 * q + r) / 4 = q := by omega
  have hmod : (4 * q + r) % 4 = r := by omega
  simp only [getElem_eachColumn invMixColumn, hdiv, hmod, h0, h1, h2, h3]
  have hun := unmix_mixColumn s[4 * q] s[4 * q + 1] s[4 * q + 2] s[4 * q + 3]
  refine (congrArg (fun v : Vector Byte 4 => v[r]) hun).trans ?_
  interval_cases r <;> rfl

/-! ### The cipher -/

theorem invSub_map (s : Block) : (s.map subByte).map invSubByte = s := by
  apply Vector.ext
  intro i h
  simp [invSub_sub]

/-- The state before the round key of round `k + 1` is added. -/
def unkeyed (nr k : Nat) (s : Block) : Block :=
  if k + 1 < nr then eachColumn mixColumn (shiftRows (s.map subByte)) else shiftRows (s.map subByte)

theorem encryptRounds_succ (rk : Vector Word 68) (nr : Nat) (b : Block) (k : Nat) :
    encryptRounds rk nr b (k + 1) = addRoundKey rk (k + 1) (unkeyed nr k (encryptRounds rk nr b k)) := rfl

/-- Rounds `k` down to `0` of decryption, started where round `k` of encryption ended
(without the columns mixed), give back the block. -/
theorem decryptRounds_encryptRounds (rk : Vector Word 68) (nr : Nat) (b : Block) (k : Nat) (hk : k < nr) :
    decryptRounds rk (k + 1) (shiftRows ((encryptRounds rk nr b k).map subByte)) = b := by
  induction k with
  | zero =>
    simp only [decryptRounds, decryptRound, invShift_shift, invSub_map, encryptRounds,
      addRoundKey_cancel, Nat.lt_irrefl, if_false]
  | succ k ih =>
    rw [decryptRounds, decryptRound, invShift_shift, invSub_map, encryptRounds_succ, addRoundKey_cancel,
      if_pos (by omega), unkeyed, if_pos hk, invMix_mix]
    exact ih (by omega)

/-- **Decryption undoes encryption**, under any round keys. -/
theorem decrypt_encrypt (rk : Vector Word 68) (nr : Nat) (b : Block) :
    swDecryptBlock rk nr (swEncryptBlock rk nr b) = b := by
  unfold swDecryptBlock swEncryptBlock
  cases nr with
  | zero => exact addRoundKey_cancel rk 0 b
  | succ k =>
    rw [encryptRounds_succ, addRoundKey_cancel, unkeyed, if_neg (by omega)]
    exact decryptRounds_encryptRounds rk (k + 1) b k (by omega)

/-! ### Round keys -/

/-- The cipher of `nr` rounds reads `4 * (nr + 1)` words. -/
def SameKeys (nr : Nat) (rk rk' : Vector Word 68) : Prop := ∀ i, i < 4 * (nr + 1) → rk.getD i 0#32 = rk'.getD i 0#32

theorem addRoundKey_congr {nr : Nat} {rk rk' : Vector Word 68} (h : SameKeys nr rk rk') (round : Nat)
    (hr : round ≤ nr) (s : Block) : addRoundKey rk round s = addRoundKey rk' round s := by
  apply Vector.ext
  intro i hi
  simp only [addRoundKey, Vector.getElem_ofFn]
  rw [h (round * 4 + i / 4) (by omega)]

theorem encryptRounds_congr {nr : Nat} {rk rk' : Vector Word 68} (h : SameKeys nr rk rk') (s : Block) (k : Nat)
    (hk : k ≤ nr) : encryptRounds rk nr s k = encryptRounds rk' nr s k := by
  induction k with
  | zero => exact addRoundKey_congr h 0 (by omega) s
  | succ k ih => rw [encryptRounds_succ, encryptRounds_succ, ih (by omega), addRoundKey_congr h _ hk]

theorem swEncryptBlock_congr {nr : Nat} {rk rk' : Vector Word 68} (h : SameKeys nr rk rk') (b : Block) :
    swEncryptBlock rk nr b = swEncryptBlock rk' nr b := encryptRounds_congr h b nr (Nat.le_refl nr)

theorem decryptRounds_congr {nr : Nat} {rk rk' : Vector Word 68} (h : SameKeys nr rk rk') (k : Nat)
    (hk : k ≤ nr) (s : Block) : decryptRounds rk k s = decryptRounds rk' k s := by
  induction k generalizing s with
  | zero => rfl
  | succ k ih =>
    simp only [decryptRounds, decryptRound, addRoundKey_congr h k (by omega)]
    exact ih (by omega) _

theorem swDecryptBlock_congr {nr : Nat} {rk rk' : Vector Word 68} (h : SameKeys nr rk rk') (b : Block) :
    swDecryptBlock rk nr b = swDecryptBlock rk' nr b := by
  rw [swDecryptBlock, swDecryptBlock, addRoundKey_congr h nr (Nat.le_refl nr),
    decryptRounds_congr h nr (Nat.le_refl nr)]

/-- The words below `n` agree. -/
def Agree (n : Nat) (rk rk' : Vector Word 68) : Prop := ∀ i, i < n → rk.getD i 0#32 = rk'.getD i 0#32

theorem agree_step {n : Nat} {rk rk' : Vector Word 68} (h : Agree n rk rk') (hn : n < 68) (x : Word) :
    Agree (n + 1) (rk.setIfInBounds n x) (rk'.setIfInBounds n x) := by
  intro i hi
  rw [getD_setIfInBounds _ _ _ _ _ hn, getD_setIfInBounds _ _ _ _ _ hn]
  split
  · rfl
  · exact h i (by omega)

/-- Storing words one after another, each from the ones before it, forgets what was there. -/
theorem agree_fold (f : Vector Word 68 → Nat → Word) (n m : Nat) (hm : n + m ≤ 68)
    (hf : ∀ i rk rk', n ≤ i → Agree i rk rk' → f rk i = f rk' i) (rk rk' : Vector Word 68)
    (h : Agree n rk rk') :
    Agree (n + m) ((List.range' n m).foldl (fun rk i => rk.setIfInBounds i (f rk i)) rk)
      ((List.range' n m).foldl (fun rk i => rk.setIfInBounds i (f rk i)) rk') := by
  induction m with
  | zero => exact h
  | succ m ih =>
    have hprev := ih (by omega)
    simp only [List.range'_concat, List.foldl_append, List.foldl_cons, List.foldl_nil, Nat.one_mul]
    rw [hf (n + m) _ _ (by omega) hprev]
    exact agree_step hprev (by omega) _

theorem expandWord_congr (nk i : Nat) (rk rk' : Vector Word 68) (hnk : 0 < nk) (hi : nk ≤ i)
    (h : Agree i rk rk') : expandWord nk rk i = expandWord nk rk' i := by
  unfold expandWord
  rw [h (i - 1) (by omega), h (i - nk) (by omega)]

/-- A schedule does not depend on the array it was written over. -/
theorem swKeyExpand_congr (rk rk' : Vector Word 68) (key : Nat → Byte) (keybits : Nat)
    (hk : keybits = 128 ∨ keybits = 192 ∨ keybits = 256) :
    SameKeys (keybits / 32 + 6) (swKeyExpand rk key keybits) (swKeyExpand rk' key keybits) := by
  have hnk : 4 ≤ keybits / 32 ∧ keybits / 32 ≤ 8 := by omega
  have hfirst := agree_fold (fun _ i => load32Be fun j => key (4 * i + j)) 0 (keybits / 32) (by omega)
    (fun _ _ _ _ _ => rfl) rk rk' (fun i hi => absurd hi (Nat.not_lt_zero i))
  rw [Nat.zero_add, ← List.range_eq_range'] at hfirst
  have hrest := agree_fold (expandWord (keybits / 32)) (keybits / 32)
    (4 * (keybits / 32 + 6 + 1) - keybits / 32) (by omega)
    (fun i _ _ hi h => expandWord_congr _ i _ _ (by omega) hi h) _ _ hfirst
  intro i hi
  exact hrest i (by omega)

/-- The permutation a key stands for. -/
def aesEncrypt (key : Nat → Byte) (keybits : Nat) (b : Block) : Block :=
  swEncryptBlock (swKeyExpand (Vector.replicate 68 0#32) key keybits) (keybits / 32 + 6) b

def aesDecrypt (key : Nat → Byte) (keybits : Nat) (b : Block) : Block :=
  swDecryptBlock (swKeyExpand (Vector.replicate 68 0#32) key keybits) (keybits / 32 + 6) b

theorem aesDecrypt_aesEncrypt (key : Nat → Byte) (keybits : Nat) (b : Block) :
    aesDecrypt key keybits (aesEncrypt key keybits b) = b := decrypt_encrypt _ _ b

/-- The software side of the context belongs to `key`. -/
structure AesContext.Keyed (ctx : AesContext) (key : Nat → Byte) (keybits : Nat) : Prop where
  size : keybits = 128 ∨ keybits = 192 ∨ keybits = 256
  bits : ctx.keybits = keybits
  rounds : ctx.nr = keybits / 32 + 6
  schedule : SameKeys ctx.nr ctx.rk (swKeyExpand (Vector.replicate 68 0#32) key keybits)

theorem setkeyEnc_ok (ctx : AesContext) (key : Nat → Byte) (keybits : Nat)
    (hk : keybits = 128 ∨ keybits = 192 ∨ keybits = 256) :
    (mbedtlsAesSetkeyEnc ctx key keybits).1 = .ok ∧
      (mbedtlsAesSetkeyEnc ctx key keybits).2.Keyed key keybits := by
  unfold mbedtlsAesSetkeyEnc
  rw [if_neg (by omega)]
  by_cases h128 : keybits = 128
  · simp only [if_pos h128, true_and]
    exact ⟨hk, rfl, rfl, swKeyExpand_congr _ _ key keybits hk⟩
  · simp only [if_neg h128, true_and]
    exact ⟨hk, rfl, rfl, swKeyExpand_congr _ _ key keybits hk⟩

theorem AesContext.Keyed.encrypt {ctx : AesContext} {key : Nat → Byte} {keybits : Nat} (h : ctx.Keyed key keybits)
    (b : Block) : mbedtlsAesCryptEcb ctx .encrypt b = (.ok, aesEncrypt key keybits b) := by
  rw [mbedtlsAesCryptEcb, swEncryptBlock_congr h.schedule, aesEncrypt, h.rounds]

end Thingino.Crypto
