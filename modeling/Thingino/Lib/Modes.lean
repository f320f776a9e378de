import Thingino.Lib.Bytes

/-! Modes of operation over an arbitrary block cipher.

`E` is a permutation of blocks under a fixed key and `D` its inverse; nothing
else is known about them. The keystream modes XOR a message with `E` of a
sequence of counter blocks (`ctrMode`), so they undo themselves. The chaining
modes (`cbcEncrypt`, `cbcDecrypt`, `cbcMac`) carry the last ciphertext block
along; a message processed in pieces is the whole message when the chain value
is carried over (`cbcEncrypt_append`, `cbcDecrypt_append`). Cipher feedback
(`cfbEncrypt`) takes segments of any size up to a block. -/
namespace Thingino.Lib

section Keystream
variable (E : Block → Block)

/-- Every block encrypted on its own. -/
def ecb (l : List Byte) : List Byte := ofBlocks ((toBlocks l).map E)

@[simp] theorem length_ecb (l : List Byte) : (ecb E l).length = 16 * ((l.length + 15) / 16) := by
  simp [ecb]

theorem ecb_ofBlocks (bs : List Block) : ecb E (ofBlocks bs) = ofBlocks (bs.map E) := by
  rw [ecb, toBlocks_ofBlocks]

/-- `E` of the first `n` counter blocks. -/
def keystream (ctr : Nat → Block) (n : Nat) : List Byte :=
  ofBlocks ((List.range n).map fun i => E (ctr i))

@[simp] theorem length_keystream (ctr : Nat → Block) (n : Nat) : (keystream E ctr n).length = 16 * n := by
  simp [keystream]

/-- A message under the keystream of just enough counter blocks. -/
def ctrMode (ctr : Nat → Block) (l : List Byte) : List Byte :=
  xorBytes l (keystream E ctr ((l.length + 15) / 16))

@[simp] theorem length_ctrMode (ctr : Nat → Block) (l : List Byte) : (ctrMode E ctr l).length = l.length := by
  simp only [ctrMode, length_xorBytes, length_keystream]
  omega

/-- Counter mode byte by byte. -/
theorem ctrMode_eq (ctr : Nat → Block) (l : List Byte) :
    ctrMode E ctr l = xorBytes l ((List.range l.length).map fun i => (E (ctr (i / 16))).getD (i % 16) 0#8) := by
  apply List.ext_getElem?
  intro i
  by_cases hi : i < l.length
  · have hblock : i / 16 < (l.length + 15) / 16 := by omega
    simp only [ctrMode, xorBytes, keystream, List.getElem?_zipWith, getElem?_ofBlocks, List.getElem?_map,
      List.getElem?_range hi, List.getElem?_range hblock, Option.map_some]
  · have hnone : l[i]? = none := List.getElem?_eq_none (Nat.le_of_not_lt hi)
    simp only [ctrMode, xorBytes, List.getElem?_zipWith, hnone]

/-- Counter mode undoes itself. -/
theorem ctrMode_ctrMode (ctr : Nat → Block) (l : List Byte) :
    ctrMode E ctr (ctrMode E ctr l) = l := by
  have h : l.length ≤ (keystream E ctr ((l.length + 15) / 16)).length := by
    rw [length_keystream]
    omega
  conv_lhs => unfold ctrMode
  rw [length_xorBytes, Nat.min_eq_left h, xorBytes_cancel _ _ h]

end Keystream

section Chaining
variable (E D : Block → Block)

def cbcEncrypt (iv : Block) : List Block → List Block
  | [] => []
  | b :: bs => E (Block.xor b iv) :: cbcEncrypt (E (Block.xor b iv)) bs

def cbcDecrypt (iv : Block) : List Block → List Block
  | [] => []
  | c :: cs => Block.xor (D c) iv :: cbcDecrypt c cs

/-- The last block of `cbcEncrypt` from the zero block. -/
def cbcMac (bs : List Block) : Block := bs.foldl (fun x b => E (Block.xor x b)) Block.zero

theorem cbcEncrypt_cons (iv b : Block) (bs : List Block) :
    cbcEncrypt E iv (b :: bs) = E (Block.xor b iv) :: cbcEncrypt E (E (Block.xor b iv)) bs := rfl

theorem cbcDecrypt_cons (iv c : Block) (cs : List Block) :
    cbcDecrypt D iv (c :: cs) = Block.xor (D c) iv :: cbcDecrypt D c cs := rfl

@[simp] theorem length_cbcEncrypt (iv : Block) (bs : List Block) :
    (cbcEncrypt E iv bs).length = bs.length := by
  induction bs generalizing iv with
  | nil => rfl
  | cons b bs ih => simp [cbcEncrypt_cons, ih]

@[simp] theorem length_cbcDecrypt (iv : Block) (bs : List Block) :
    (cbcDecrypt D iv bs).length = bs.length := by
  induction bs generalizing iv with
  | nil => rfl
  | cons b bs ih => simp [cbcDecrypt_cons, ih]

theorem cbcEncrypt_append (iv : Block) (a b : List Block) :
    cbcEncrypt E iv (a ++ b) = cbcEncrypt E iv a ++ cbcEncrypt E ((cbcEncrypt E iv a).getLastD iv) b := by
  induction a generalizing iv with
  | nil => rfl
  | cons x a ih => simp only [List.cons_append, cbcEncrypt_cons, ih, List.getLastD_cons]

theorem cbcDecrypt_append (iv : Block) (a b : List Block) :
    cbcDecrypt D iv (a ++ b) = cbcDecrypt D iv a ++ cbcDecrypt D (a.getLastD iv) b := by
  induction a generalizing iv with
  | nil => rfl
  | cons x a ih => simp only [List.cons_append, cbcDecrypt_cons, ih, List.getLastD_cons]

/-- Decryption needs nothing of the cipher but that `D` undoes `E`. -/
theorem cbcDecrypt_cbcEncrypt (h : ∀ b, D (E b) = b) (iv : Block) (bs : List Block) :
    cbcDecrypt D iv (cbcEncrypt E iv bs) = bs := by
  induction bs generalizing iv with
  | nil => rfl
  | cons b bs ih => rw [cbcEncrypt_cons, cbcDecrypt_cons, h, Block.xor_cancel, ih]

/-- The chain value after a message, as a fold over it. -/
theorem getLastD_cbcEncrypt (iv : Block) (bs : List Block) :
    (cbcEncrypt E iv bs).getLastD iv = bs.foldl (fun x b => E (Block.xor x b)) iv := by
  induction bs generalizing iv with
  | nil => rfl
  | cons b bs ih => rw [cbcEncrypt_cons, List.getLastD_cons, ih, List.foldl_cons, Block.xor_comm b iv]

theorem cbcMac_eq_getLastD (bs : List Block) :
    cbcMac E bs = (cbcEncrypt E Block.zero bs).getLastD Block.zero :=
  (getLastD_cbcEncrypt E Block.zero bs).symm

end Chaining

/-- Cipher feedback over segments: each is added to the head of the encrypted register and shifted into it. -/
def cfbEncrypt (E : Block → Block) (register : Block) : List (List Byte) → List (List Byte)
  | [] => []
  | p :: ps =>
    let c := xorBytes p (E register).toList
    c :: cfbEncrypt E (Block.ofList (register.toList.drop c.length ++ c)) ps

theorem cfbEncrypt_cons (E : Block → Block) (register : Block) (p : List Byte) (ps : List (List Byte)) :
    cfbEncrypt E register (p :: ps) =
      xorBytes p (E register).toList ::
        cfbEncrypt E (Block.ofList (register.toList.drop (xorBytes p (E register).toList).length ++
          xorBytes p (E register).toList)) ps := rfl

/-- The last 16 bytes of joined blocks are the last block. -/
theorem drop_ofBlocks_getLastD (bs : List Block) (d : Block) (h : bs ≠ []) :
    (ofBlocks bs).drop (16 * bs.length - 16) = (bs.getLastD d).toList := by
  obtain ⟨bs, b, rfl⟩ := List.eq_nil_or_concat bs |>.resolve_left h
  have hk : 16 * (bs ++ [b]).length - 16 = (ofBlocks bs).length := by
    rw [length_ofBlocks, List.length_append, List.length_singleton]
    omega
  rw [List.concat_eq_append, hk, ofBlocks_append, List.drop_left, List.getLastD_concat]
  simp [ofBlocks]

end Thingino.Lib
