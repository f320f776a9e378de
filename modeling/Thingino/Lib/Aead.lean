import Thingino.Lib.Gf128
import Thingino.Lib.Modes

/-! Two authenticated modes as their standards write them, over an arbitrary
block cipher `E`.

`Gcm` is Galois/Counter Mode (NIST SP 800-38D): the pre-counter block `j0`, the
32-bit increment `inc32`, the keystream `gctr`, the hash `ghash` of associated
data and ciphertext with their 64-bit lengths, the tag. `Ccm` is counter mode
with CBC-MAC (RFC 3610): the first block with its flags, the encoded associated
data, the zero-padded message, the counter blocks, the masked tag. Messages are
whole bytes. These definitions say what the modes are; no program is mentioned. -/
namespace Thingino.Lib

namespace Gcm
variable (E : Block → Block)

/-- The hash subkey: `E` of the zero block. -/
def hashKey : BitVec 128 := (E Block.zero).bits

/-- `GHASH`: every block is added and the sum multiplied by the hash subkey. -/
def ghash (H : BitVec 128) (xs : List (BitVec 128)) : BitVec 128 :=
  xs.foldl (fun Y X => Gf128.mul (Y ^^^ X) H) 0#128

/-- Bytes as blocks of bits, the last one filled with zeros on the right. -/
def padded (l : List Byte) : List (BitVec 128) := (toBlocks l).map Block.bits

/-- The rightmost 32 bits plus one, modulo 2³²; the others fixed. -/
def inc32 (X : BitVec 128) : BitVec 128 := X.extractLsb' 32 96 ++ (X.extractLsb' 0 32 + 1#32)

/-- The pre-counter block. A 96-bit vector is used as it is; any other is hashed
with its length in bits. -/
def j0 (iv : List Byte) : BitVec 128 :=
  if iv.length = 12 then (Block.ofList (iv ++ [0#8, 0#8, 0#8, 1#8])).bits
  else ghash (hashKey E) (padded iv ++ [0#64 ++ BitVec.ofNat 64 (8 * iv.length)])

/-- `GCTR`: the message under the keystream that starts at the block `icb`. -/
def gctr (icb : BitVec 128) (l : List Byte) : List Byte :=
  ctrMode E (fun i => Block.ofBits (inc32^[i] icb)) l

/-- The hash of associated data and ciphertext. -/
def authHash (ad ct : List Byte) : BitVec 128 :=
  ghash (hashKey E) (padded ad ++ padded ct ++
    [BitVec.ofNat 64 (8 * ad.length) ++ BitVec.ofNat 64 (8 * ct.length)])

def encrypt (iv pt : List Byte) : List Byte := gctr E (inc32 (j0 E iv)) pt

/-- The full tag; a shorter one is its first bytes. -/
def tag (iv ad ct : List Byte) : List Byte :=
  gctr E (j0 E iv) (Block.ofBits (authHash E ad ct)).toList

theorem ghash_append (H : BitVec 128) (xs ys : List (BitVec 128)) :
    ghash H (xs ++ ys) = ys.foldl (fun Y X => Gf128.mul (Y ^^^ X) H) (ghash H xs) := by
  rw [ghash, List.foldl_append]
  rfl

/-- Encryption and decryption are one operation. -/
theorem encrypt_encrypt (iv pt : List Byte) : encrypt E iv (encrypt E iv pt) = pt :=
  ctrMode_ctrMode E _ pt

@[simp] theorem length_encrypt (iv pt : List Byte) : (encrypt E iv pt).length = pt.length :=
  length_ctrMode E _ pt

/-- One block of keystream is all the tag needs. -/
theorem tag_eq (iv ad ct : List Byte) :
    tag E iv ad ct = xorBytes (Block.ofBits (authHash E ad ct)).toList
      (E (Block.ofBits (j0 E iv))).toList := by
  simp [tag, gctr, ctrMode, keystream, ofBlocks]

theorem length_tag (iv ad ct : List Byte) : (tag E iv ad ct).length = 16 := by
  simp [tag_eq]

theorem inc32_append (hi : BitVec 96) (lo : BitVec 32) : inc32 (hi ++ lo) = hi ++ (lo + 1#32) := by
  have h1 : (hi ++ lo).extractLsb' 32 96 = hi := by
    apply BitVec.eq_of_getLsbD_eq
    intro i h
    simp only [BitVec.getLsbD_extractLsb', h, decide_true, Bool.true_and]
    exact (BitVec.getLsbD_append (x := hi) (y := lo)).trans (by
      rw [if_neg (by omega), Nat.add_sub_cancel_left])
  have h2 : (hi ++ lo).extractLsb' 0 32 = lo := by
    apply BitVec.eq_of_getLsbD_eq
    intro i h
    simp only [BitVec.getLsbD_extractLsb', h, decide_true, Bool.true_and, Nat.zero_add]
    exact (BitVec.getLsbD_append (x := hi) (y := lo)).trans (if_pos h)
  rw [inc32, h1, h2]

/-- Any number of increments only moves the low 32 bits. -/
theorem iterate_inc32 (hi : BitVec 96) (lo : BitVec 32) (n : Nat) :
    inc32^[n] (hi ++ lo) = hi ++ (lo + BitVec.ofNat 32 n) := by
  induction n with
  | zero => simp
  | succ n ih =>
    rw [Function.iterate_succ_apply', ih, inc32_append, BitVec.add_assoc, BitVec.ofNat_add]

end Gcm

namespace Ccm
variable (E : Block → Block)

/-- The first byte of the first block: the associated-data bit, the encoded tag
length and the encoded length of the length field, `64 * Adata + 8 * M' + L'`. -/
def flags (ivLen adLen tagLen : Nat) : Byte :=
  BitVec.ofNat 8 (64 * (if 0 < adLen then 1 else 0) + 8 * ((tagLen - 2) / 2) + (15 - ivLen - 1))

/-- The first block: flags, nonce, message length. -/
def b0 (iv : List Byte) (adLen ptLen tagLen : Nat) : List Byte :=
  flags iv.length adLen tagLen :: (iv ++ beBytes (15 - iv.length) ptLen)

/-- The length of the associated data: nothing, two bytes, six or ten. -/
def adLength (n : Nat) : List Byte :=
  if n = 0 then []
  else if n < 0xff00 then beBytes 2 n
  else if n < 2 ^ 32 then [0xff#8, 0xfe#8] ++ beBytes 4 n
  else [0xff#8, 0xff#8] ++ beBytes 8 n

/-- What the MAC runs over. -/
def macInput (iv ad pt : List Byte) (tagLen : Nat) : List Byte :=
  b0 iv ad.length pt.length tagLen ++ pad16 (adLength ad.length ++ ad) ++ pad16 pt

/-- The `i`-th counter block. -/
def counter (iv : List Byte) (i : Nat) : Block :=
  Block.ofList (BitVec.ofNat 8 (15 - iv.length - 1) :: (iv ++ beBytes (15 - iv.length) i))

/-- The message under the keystream of the counters from one on. -/
def encrypt (iv pt : List Byte) : List Byte := ctrMode E (fun i => counter iv (i + 1)) pt

/-- The MAC's first bytes under the counter block zero. -/
def tag (iv ad pt : List Byte) (tagLen : Nat) : List Byte :=
  (xorBytes (cbcMac E (toBlocks (macInput iv ad pt tagLen))).toList (E (counter iv 0)).toList).take tagLen

theorem encrypt_encrypt (iv pt : List Byte) : encrypt E iv (encrypt E iv pt) = pt :=
  ctrMode_ctrMode E _ pt

@[simp] theorem length_encrypt (iv pt : List Byte) : (encrypt E iv pt).length = pt.length :=
  length_ctrMode E _ pt

theorem length_tag (iv ad pt : List Byte) (tagLen : Nat) (h : tagLen ≤ 16) :
    (tag E iv ad pt tagLen).length = tagLen := by
  simp [tag]
  omega

end Ccm

end Thingino.Lib
