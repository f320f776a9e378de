import Thingino.Crypto.Cbc
import Thingino.Crypto.AesStandard
import Thingino.Lib.Transducer

/-! The byte-wise modes of `aes_alt.c`: CFB128, CFB8, OFB and CTR.

Each of the four loops takes one byte of input per turn, and keeps where it stands in
what the caller carries to the next call: the vector and an offset into it, the vector
alone, or a counter, an offset and the keystream block the offset points into. -/
namespace Thingino.Crypto
open Lib

/-! ### The loops -/

/-- `iv` and `iv_off`. -/
structure IvState where
  iv : Block
  ivOff : Fin 16

/-- `nonce_counter`, `nc_off` and `stream_block`. -/
structure CtrState where
  nonceCounter : Block
  ncOff : Fin 16
  streamBlock : Block

/-- `(n + 1) & 15`. -/
def nextOff (n : Fin 16) : Fin 16 := ⟨(n.val + 1) &&& 15, Nat.lt_succ_of_le Nat.and_le_right⟩

/-- What a call leaves: its return value, the bytes it stored, what the caller carries on. -/
structure StreamResult (σ : Type) where
  ret : Status
  output : List Byte
  state : σ

/-- `while (length--)` around a body that reads one byte and stores one. -/
def whileLength {σ : Type} (body : σ → Byte → Byte × σ) (s : σ) (input : List Byte) : StreamResult σ :=
  let (output, s) := transduce body s input
  ⟨.ok, output, s⟩

section Bodies
variable (encryptBlock : Block → Block)

/-- The vector is encrypted in place when the offset has come round. -/
def refresh (s : IvState) : Block := if s.ivOff.val = 0 then encryptBlock s.iv else s.iv

def cfb128Body (mode : Direction) (s : IvState) (x : Byte) : Byte × IvState :=
  let iv := refresh encryptBlock s
  let out := x ^^^ iv[s.ivOff]
  -- the ciphertext byte takes its place in the vector
  match mode with
  | .decrypt => (out, ⟨iv.set s.ivOff x, nextOff s.ivOff⟩)
  | .encrypt => (out, ⟨iv.set s.ivOff out, nextOff s.ivOff⟩)

def cfb8Body (mode : Direction) (iv : Block) (x : Byte) : Byte × Block :=
  let ov := iv.toList
  let iv := encryptBlock iv
  let out := x ^^^ iv.getD 0 0#8
  let ov := ov ++ [match mode with | .decrypt => x | .encrypt => out]
  (out, Block.ofList (ov.drop 1))

def ofbBody (s : IvState) (x : Byte) : Byte × IvState :=
  let iv := refresh encryptBlock s
  (x ^^^ iv[s.ivOff], ⟨iv, nextOff s.ivOff⟩)

/-- The loop over the bytes `i - 1` down to `0`, left at the first one that does not wrap. -/
def incrementCounter (c : Block) : Nat → Block
  | 0 => c
  | i + 1 =>
    let c := c.setIfInBounds i (c.getD i 0#8 + 1#8)
    if c.getD i 0#8 ≠ 0#8 then c else incrementCounter c i

def ctrBody (s : CtrState) (x : Byte) : Byte × CtrState :=
  let s :=
    if s.ncOff.val = 0 then
      { s with
        streamBlock := encryptBlock s.nonceCounter
        nonceCounter := incrementCounter s.nonceCounter 16 }
    else s
  (x ^^^ s.streamBlock[s.ncOff], { s with ncOff := nextOff s.ncOff })

end Bodies

section Calls
variable (ctx : AesContext)

def mbedtlsAesCryptCfb128 (mode : Direction) : IvState → List Byte → StreamResult IvState :=
  whileLength (cfb128Body (swEncryptBlock ctx.rk ctx.nr) mode)

def mbedtlsAesCryptCfb8 (mode : Direction) : Block → List Byte → StreamResult Block :=
  whileLength (cfb8Body (swEncryptBlock ctx.rk ctx.nr) mode)

def mbedtlsAesCryptOfb : IvState → List Byte → StreamResult IvState :=
  whileLength (ofbBody (swEncryptBlock ctx.rk ctx.nr))

def mbedtlsAesCryptCtr : CtrState → List Byte → StreamResult CtrState :=
  whileLength (ctrBody (swEncryptBlock ctx.rk ctx.nr))

end Calls

/-! ### The counter -/

theorem take_setIfInBounds (c : Block) (i : Nat) (x : Byte) :
    (c.setIfInBounds i x).toList.take i = c.toList.take i := by
  rw [Vector.toList_setIfInBounds, List.take_set_of_le (Nat.le_refl i)]

theorem beNat_take_succ (c : Block) (i : Nat) (h : i < 16) :
    beNat (c.toList.take (i + 1)) = 256 * beNat (c.toList.take i) + (c.getD i 0#8).toNat := by
  have hget : c.toList[i]? = some (c.getD i 0#8) := by simp [h, Vector.getD]
  rw [List.take_add_one, hget, Option.toList_some, beNat_concat]

theorem beNat_take_lt (c : Block) (i : Nat) (h : i ≤ 16) : beNat (c.toList.take i) < 256 ^ i := by
  induction i with
  | zero => exact Nat.one_pos
  | succ i ih =>
    have := ih (by omega)
    have := (c.getD i 0#8).isLt
    rw [beNat_take_succ c i h, Nat.pow_succ]
    omega

/-- The bytes from `n` on stay. -/
theorem getD_incrementCounter (c : Block) (n i : Nat) (hn : n ≤ 16) (h : n ≤ i) :
    (incrementCounter c n).getD i 0#8 = c.getD i 0#8 := by
  induction n generalizing c with
  | zero => rfl
  | succ n ih =>
    have hset : (c.setIfInBounds n (c.getD n 0#8 + 1#8)).getD i 0#8 = c.getD i 0#8 := by
      rw [getD_setIfInBounds _ _ _ _ _ (by omega), if_neg (by omega)]
    simp only [incrementCounter]
    split
    · exact hset
    · rw [ih _ (by omega) (by omega), hset]

/-- The first `n` bytes count up by one, modulo `256 ^ n`. -/
theorem beNat_incrementCounter (c : Block) (n : Nat) (hn : n ≤ 16) :
    beNat ((incrementCounter c n).toList.take n) = (beNat (c.toList.take n) + 1) % 256 ^ n := by
  induction n generalizing c with
  | zero =>
    rw [Nat.pow_zero, Nat.mod_one]
    rfl
  | succ n ih =>
    have hb := (c.getD n 0#8).isLt
    have hself : (c.setIfInBounds n (c.getD n 0#8 + 1#8)).getD n 0#8 = c.getD n 0#8 + 1#8 := by
      rw [getD_setIfInBounds _ _ _ _ _ (by omega), if_pos rfl]
    rw [beNat_take_succ c n (by omega)]
    simp only [incrementCounter, hself]
    split
    · rename_i hne
      -- no carry out of byte `n`
      have hlt := beNat_take_lt (c.setIfInBounds n (c.getD n 0#8 + 1#8)) (n + 1) hn
      have hbyte : (c.getD n 0#8 + 1#8).toNat = (c.getD n 0#8).toNat + 1 := by
        have : (c.getD n 0#8 + 1#8).toNat ≠ 0 := fun h0 => hne (BitVec.eq_of_toNat_eq h0)
        rw [BitVec.toNat_add] at this ⊢
        simp only [BitVec.toNat_ofNat] at this ⊢
        omega
      rw [beNat_take_succ _ n (by omega), take_setIfInBounds, hself, hbyte] at hlt ⊢
      rw [← Nat.add_assoc] at hlt ⊢
      exact (Nat.mod_eq_of_lt hlt).symm
    · rename_i hzero
      have hzero : c.getD n 0#8 + 1#8 = 0#8 := Decidable.not_not.mp hzero
      have hbyte : (c.getD n 0#8).toNat = 255 := by
        have := congrArg BitVec.toNat hzero
        rw [BitVec.toNat_add] at this
        simp only [BitVec.toNat_ofNat] at this
        omega
      rw [beNat_take_succ _ n (by omega), getD_incrementCounter _ n n (by omega) (Nat.le_refl n), hself, hzero,
        ih _ (by omega), take_setIfInBounds, hbyte]
      calc 256 * ((beNat (c.toList.take n) + 1) % 256 ^ n) + 0
          = (256 * (beNat (c.toList.take n) + 1)) % (256 * 256 ^ n) := (Nat.mul_mod_mul_left ..).symm
        _ = (256 * beNat (c.toList.take n) + 255 + 1) % 256 ^ (n + 1) := by
          rw [Nat.pow_succ, Nat.mul_comm (256 ^ n), Nat.mul_add]

/-- The counter after any number of increments. -/
theorem beNat_iterate_incrementCounter (c : Block) (k : Nat) :
    beNat ((incrementCounter · 16)^[k] c).toList = (beNat c.toList + k) % 2 ^ 128 := by
  have hfull (b : Block) : b.toList.take 16 = b.toList := List.take_of_length_le (by rw [Vector.length_toList])
  have hpow : (256 : Nat) ^ 16 = 2 ^ 128 := by norm_num
  induction k with
  | zero =>
    have hlt := beNat_take_lt c 16 (Nat.le_refl 16)
    rw [hfull, hpow] at hlt
    exact (Nat.mod_eq_of_lt hlt).symm
  | succ k ih =>
    have hstep := beNat_incrementCounter ((incrementCounter · 16)^[k] c) 16 (Nat.le_refl 16)
    rw [hfull, hfull, hpow, ih] at hstep
    rw [Function.iterate_succ_apply', hstep, Nat.mod_add_mod, Nat.add_assoc]

/-! ### One byte -/

section Bodies
variable (encryptBlock : Block → Block)

theorem cfb128Body_undo (s : IvState) (x : Byte) :
    cfb128Body encryptBlock .decrypt s (cfb128Body encryptBlock .encrypt s x).1 =
      (x, (cfb128Body encryptBlock .encrypt s x).2) := by
  simp only [cfb128Body, BitVec.xor_assoc, BitVec.xor_self, BitVec.xor_zero]

theorem cfb8Body_undo (iv : Block) (x : Byte) :
    cfb8Body encryptBlock .decrypt iv (cfb8Body encryptBlock .encrypt iv x).1 =
      (x, (cfb8Body encryptBlock .encrypt iv x).2) := by
  simp only [cfb8Body, BitVec.xor_assoc, BitVec.xor_self, BitVec.xor_zero]

theorem ofbBody_undo (s : IvState) (x : Byte) :
    ofbBody encryptBlock s (ofbBody encryptBlock s x).1 = (x, (ofbBody encryptBlock s x).2) := by
  simp only [ofbBody, BitVec.xor_assoc, BitVec.xor_self, BitVec.xor_zero]

theorem ctrBody_undo (s : CtrState) (x : Byte) :
    ctrBody encryptBlock s (ctrBody encryptBlock s x).1 = (x, (ctrBody encryptBlock s x).2) := by
  simp only [ctrBody, BitVec.xor_assoc, BitVec.xor_self, BitVec.xor_zero]

/-- A turn that finds the offset at zero draws a keystream block and counts it. -/
theorem ctrBody_counter (s : CtrState) (x : Byte) :
    (ctrBody encryptBlock s x).2.nonceCounter =
      if s.ncOff.val = 0 then incrementCounter s.nonceCounter 16 else s.nonceCounter := by
  by_cases h : s.ncOff.val = 0
  · simp only [ctrBody, if_pos h]
  · simp only [ctrBody, if_neg h]

theorem ctrBody_ncOff (s : CtrState) (x : Byte) : (ctrBody encryptBlock s x).2.ncOff = nextOff s.ncOff := by
  by_cases h : s.ncOff.val = 0
  · simp only [ctrBody, if_pos h]
  · simp only [ctrBody, if_neg h]

end Bodies

/-! ### Calls in a row -/

section InCalls
variable {σ : Type}

/-- Chunks one call at a time, each from what the call before it left; a call that fails is the last. -/
def inCalls (call : σ → List Byte → StreamResult σ) : σ → List (List Byte) → StreamResult σ
  | s, [] => ⟨.ok, [], s⟩
  | s, chunk :: chunks =>
    let r := call s chunk
    if r.ret = .ok then
      let rest := inCalls call r.state chunks
      { rest with output := r.output ++ rest.output }
    else r

/-- However an input is cut, the calls on the pieces are the call on the whole. -/
def Splits (call : σ → List Byte → StreamResult σ) : Prop :=
  ∀ (s : σ) (chunks : List (List Byte)), inCalls call s chunks = call s chunks.flatten

/-- From the same state `back` returns what `call` was given, and ends in the same state. -/
def Restores (call back : σ → List Byte → StreamResult σ) : Prop :=
  ∀ (s : σ) (input : List Byte), back s (call s input).output = ⟨.ok, input, (call s input).state⟩

theorem whileLength_splits (body : σ → Byte → Byte × σ) : Splits (whileLength body) := by
  intro s chunks
  induction chunks generalizing s with
  | nil => rfl
  | cons chunk chunks ih =>
    have hrest := ih (transduce body s chunk).2
    simp only [inCalls, whileLength, if_pos, List.flatten_cons, transduce_append] at hrest ⊢
    rw [hrest]

theorem whileLength_restores {body back : σ → Byte → Byte × σ}
    (h : ∀ s x, back s (body s x).1 = (x, (body s x).2)) : Restores (whileLength body) (whileLength back) := by
  intro s input
  simp only [whileLength, transduce_undo h]

end InCalls

/-- The keystream blocks a call draws: the turns that find the offset at zero. -/
def freshBlocks (ctx : AesContext) : CtrState → List Byte → Nat :=
  visits (ctrBody (swEncryptBlock ctx.rk ctx.nr)) fun s => s.ncOff.val = 0

theorem nextOff_val (n : Fin 16) : (nextOff n).val = (n.val + 1) % 16 := Nat.and_two_pow_sub_one_eq_mod (n.val + 1) 4

/-- One block for each block boundary from the offset on that the input starts at or crosses. -/
theorem freshBlocks_eq (ctx : AesContext) (s : CtrState) (input : List Byte) :
    freshBlocks ctx s input = (s.ncOff.val + input.length + 15) / 16 - (s.ncOff.val + 15) / 16 := by
  unfold freshBlocks
  induction input generalizing s with
  | nil => simp [visits]
  | cons x input ih =>
    have hoff := ctrBody_ncOff (swEncryptBlock ctx.rk ctx.nr) s x
    have hlt := s.ncOff.isLt
    rw [visits, ih, hoff, nextOff_val, List.length_cons]
    by_cases h0 : s.ncOff.val = 0
    · rw [if_pos h0, h0]
      omega
    · rw [if_neg h0]
      omega

theorem setkeyEnc_sw (ctx : AesContext) (size : Fips197.KeySize) (key : Nat → Byte) :
    let ctx' := (mbedtlsAesSetkeyEnc ctx key size.bits).2
    swEncryptBlock ctx'.rk ctx'.nr = aesEncrypt key size.bits :=
  (setkeyEnc_ready ctx key size.bits (by cases size <;> decide)).swEncrypt

/-- **The byte-wise modes can be split anywhere**, whatever the context holds: calls on the
pieces of an input, each from the state the last one left, are one call on the input. Under
one key a decryption undoes the encryption that started from the same state, and the
counter of CTR has moved by the number of blocks drawn. -/
theorem streaming_modes :
    (∀ (ctx : AesContext) (mode : Direction),
      Splits (mbedtlsAesCryptCfb128 ctx mode) ∧ Splits (mbedtlsAesCryptCfb8 ctx mode) ∧
        Splits (mbedtlsAesCryptOfb ctx) ∧ Splits (mbedtlsAesCryptCtr ctx)) ∧
    (∀ (size : Fips197.KeySize) (key : Nat → Byte) (ctx₀ ctx₁ : AesContext),
      let enc := (mbedtlsAesSetkeyEnc ctx₀ key size.bits).2
      let dec := (mbedtlsAesSetkeyEnc ctx₁ key size.bits).2
      Restores (mbedtlsAesCryptCfb128 enc .encrypt) (mbedtlsAesCryptCfb128 dec .decrypt) ∧
        Restores (mbedtlsAesCryptCfb8 enc .encrypt) (mbedtlsAesCryptCfb8 dec .decrypt) ∧
        Restores (mbedtlsAesCryptOfb enc) (mbedtlsAesCryptOfb dec) ∧
        Restores (mbedtlsAesCryptCtr enc) (mbedtlsAesCryptCtr dec)) ∧
    (∀ (ctx : AesContext) (s : CtrState) (input : List Byte),
      beNat (mbedtlsAesCryptCtr ctx s input).state.nonceCounter.toList =
        (beNat s.nonceCounter.toList + freshBlocks ctx s input) % 2 ^ 128) := by
  refine ⟨fun ctx mode => ?_, fun size key ctx₀ ctx₁ => ?_, fun ctx s input => ?_⟩
  · exact ⟨whileLength_splits _, whileLength_splits _, whileLength_splits _, whileLength_splits _⟩
  · intro enc dec
    have henc : swEncryptBlock enc.rk enc.nr = aesEncrypt key size.bits := setkeyEnc_sw ctx₀ size key
    have hdec : swEncryptBlock dec.rk dec.nr = aesEncrypt key size.bits := setkeyEnc_sw ctx₁ size key
    simp only [mbedtlsAesCryptCfb128, mbedtlsAesCryptCfb8, mbedtlsAesCryptOfb, mbedtlsAesCryptCtr, henc, hdec]
    exact ⟨whileLength_restores (cfb128Body_undo _), whileLength_restores (cfb8Body_undo _),
      whileLength_restores (ofbBody_undo _), whileLength_restores (ctrBody_undo _)⟩
  · rw [← beNat_iterate_incrementCounter]
    exact congrArg (fun c : Block => beNat c.toList)
      (transduce_iterate (ctrBody (swEncryptBlock ctx.rk ctx.nr)) (fun s => s.ncOff.val = 0) CtrState.nonceCounter
        (incrementCounter · 16) (ctrBody_counter (swEncryptBlock ctx.rk ctx.nr)) s input)

end Thingino.Crypto
