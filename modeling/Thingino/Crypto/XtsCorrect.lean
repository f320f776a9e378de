import Thingino.Crypto.XtsAlt

/-! `mbedtls_aes_crypt_xts` is XTS-AES.

The loop leaves in the output what the mode makes of the blocks it read, as long as no
block is stored over input that is still to come (`xtsLoop_spec`); stealing needs the
output apart from the input (`xtsSteal_spec`). Over the tweaks of the carry chain the call
is therefore the standard's procedure in either direction (`cryptXts_spec`), and the
directions undo each other. -/
namespace Thingino.Crypto
open Lib

section Memory
variable (ctx : AesXtsContext) (mode : Direction)

/-- Block `q` under the tweak that `q` doublings of `T` give. -/
def xtsAt (T : Block) (q : Nat) (b : Block) : Block := xtsBlock ctx mode (xtsMulTweak^[q] T) b

/-- What the loop leaves. -/
structure LoopDone (n : Nat) (T : Block) (mem : Buf) (input output : Nat) (r : Buf × Block) : Prop where
  tweak : r.2 = xtsMulTweak^[n] T
  outside : Buf.SameOutside output (16 * n) mem r.1
  stored : r.1.read output (16 * n) =
    ofBlocks ((List.range n).map fun q => xtsAt ctx mode T q (Block.ofList (mem.read (input + 16 * q) 16)))

theorem xtsLoop_spec (n : Nat) (T : Block) (mem : Buf) (input output : Nat)
    (h : output ≤ input ∨ input + 16 * n ≤ output) :
    LoopDone ctx mode n T mem input output (xtsLoop ctx mode n T mem input output) := by
  induction n generalizing T mem input output with
  | zero => exact ⟨rfl, fun _ _ => rfl, rfl⟩
  | succ n ih =>
    have hblock : (xtsBlock ctx mode T (Block.ofList (mem.read input 16))).toList.length = 16 := Vector.length_toList
    rw [xtsLoop]
    generalize hmem : mem.write output (xtsBlock ctx mode T (Block.ofList (mem.read input 16))).toList = mem₁
    have hrest := ih (xtsMulTweak T) mem₁ (input + 16) (output + 16) (by omega)
    have hfirst : Buf.SameOutside output (16 * (n + 1)) mem mem₁ := by
      rw [← hmem]
      exact Buf.sameOutside_write _ _ _ _ _ (Nat.le_refl _) (by omega)
    refine ⟨?_, hfirst.trans (hrest.outside.widen (by omega) (by omega)), ?_⟩
    · rw [hrest.tweak, Function.iterate_succ_apply]
    · have hhere : (xtsLoop ctx mode n (xtsMulTweak T) mem₁ (input + 16) (output + 16)).1.read output 16 =
          (xtsAt ctx mode T 0 (Block.ofList (mem.read (input + 16 * 0) 16))).toList := by
        rw [hrest.outside.read output 16 (by omega), ← hmem]
        exact Buf.read_write_of_length _ _ _ _ hblock
      have hlater : ∀ q ∈ List.range n,
          xtsAt ctx mode (xtsMulTweak T) q (Block.ofList (mem₁.read (input + 16 + 16 * q) 16)) =
            xtsAt ctx mode T (q + 1) (Block.ofList (mem.read (input + 16 * (q + 1)) 16)) := by
        intro q hq
        have hq := List.mem_range.mp hq
        rw [← hmem, Buf.read_write_apart _ _ _ _ _ (by omega), Nat.add_assoc, Nat.add_comm 16]
        rfl
      have hlen : 16 * (n + 1) = 16 + 16 * n := by omega
      rw [hlen, Buf.read_add, hhere, hrest.stored, List.map_congr_left hlater,
        List.range_succ_eq_map, List.map_cons, List.map_map, ofBlocks_cons]
      rfl

/-- Stealing through memory, the two blocks under `F` and `G`. -/
theorem steal_memory (F G : Block → Block) (leftover : Nat) (mem : Buf) (input output : Nat) (hlt : leftover < 16)
    (hap : input + (16 + leftover) ≤ output ∨ output + (16 + leftover) ≤ input) :
    let tmp := F (Block.ofList (mem.read input 16))
    let mem₁ := mem.write (output + 16) (tmp.toList.take leftover)
    let prev := Block.ofList (overlay (mem₁.read (input + 16) leftover) tmp.toList)
    let mem₂ := mem₁.write output (G prev).toList
    Buf.SameOutside output (16 + leftover) mem mem₂ ∧
      mem₂.read output (16 + leftover) =
        Xts.steal F G (Block.ofList (mem.read input 16)) (mem.read (input + 16) leftover) := by
  intro tmp mem₁ prev mem₂
  have htail : (tmp.toList.take leftover).length = leftover := by
    rw [List.length_take, Vector.length_toList]
    omega
  have hblock : (G prev).toList.length = 16 := Vector.length_toList
  have hrest : mem₁.read (input + 16) leftover = mem.read (input + 16) leftover :=
    Buf.read_write_apart _ _ _ _ _ (by omega)
  have hsame₁ : Buf.SameOutside output (16 + leftover) mem mem₁ := Buf.sameOutside_write _ _ _ _ _ (by omega) (by omega)
  have hsame₂ : Buf.SameOutside output (16 + leftover) mem₁ mem₂ :=
    Buf.sameOutside_write _ _ _ _ _ (Nat.le_refl _) (by omega)
  refine ⟨hsame₁.trans hsame₂, ?_⟩
  have hfront : mem₂.read output 16 = (G prev).toList := Buf.read_write_of_length _ _ _ _ hblock
  have hback : mem₂.read (output + 16) leftover = tmp.toList.take leftover := by
    rw [Buf.read_write_apart _ _ _ _ _ (by omega), Buf.read_write_of_length _ _ _ _ htail]
  rw [Buf.read_add, hfront, hback, Xts.steal, Buf.length_read]
  simp only [prev, overlay, hrest, Buf.length_read, tmp]

/-- What stealing leaves, with the last whole block at `input`. -/
theorem xtsSteal_spec (T : Block) (n leftover : Nat) (mem : Buf) (input output : Nat) (hlt : leftover < 16)
    (hap : input + (16 + leftover) ≤ output ∨ output + (16 + leftover) ≤ input) :
    let mem' := xtsSteal ctx mode (xtsMulTweak^[n] T) leftover mem input output
    Buf.SameOutside output (16 + leftover) mem mem' ∧
      mem'.read output (16 + leftover) =
        Xts.steal (xtsAt ctx mode T (if mode = .decrypt then n + 1 else n))
          (xtsAt ctx mode T (if mode = .decrypt then n else n + 1))
          (Block.ofList (mem.read input 16)) (mem.read (input + 16) leftover) := by
  have hnext : xtsMulTweak (xtsMulTweak^[n] T) = xtsMulTweak^[n + 1] T := (Function.iterate_succ_apply' ..).symm
  unfold xtsSteal
  rw [hnext]
  cases mode with
  | encrypt => exact steal_memory (xtsAt ctx .encrypt T n) (xtsAt ctx .encrypt T (n + 1)) leftover mem input output hlt hap
  | decrypt => exact steal_memory (xtsAt ctx .decrypt T (n + 1)) (xtsAt ctx .decrypt T n) leftover mem input output hlt hap

/-- A block of a string in memory. -/
theorem ofList_drop_read (mem : Buf) (off length q : Nat) (h : 16 * q + 16 ≤ length) :
    Block.ofList ((mem.read off length).drop (16 * q)) = Block.ofList (mem.read (off + 16 * q) 16) := by
  rw [Buf.read_sub mem off length (16 * q) 16 h, Block.ofList_take]

theorem whole_read (C : Nat → Block → Block) (mem : Buf) (off length n : Nat) (h : 16 * n ≤ length) :
    Xts.whole C n (mem.read off length) =
      ofBlocks ((List.range n).map fun q => C q (Block.ofList (mem.read (off + 16 * q) 16))) := by
  refine congrArg ofBlocks (List.map_congr_left fun q hq => ?_)
  have hq := List.mem_range.mp hq
  rw [ofList_drop_read mem off length q (by omega)]

/-- The procedure of the standard for a direction. -/
def xtsProcedure (mode : Direction) (C : Nat → Block → Block) (P : List Byte) : List Byte :=
  match mode with
  | .encrypt => Xts.encrypt C P
  | .decrypt => Xts.decrypt C P

theorem xtsProcedure_whole (C : Nat → Block → Block) (P : List Byte) (h : P.length % 16 = 0) :
    xtsProcedure mode C P = Xts.whole C (P.length / 16) P := by
  cases mode with
  | encrypt => exact if_pos h
  | decrypt => exact if_pos h

theorem xtsProcedure_steal (C : Nat → Block → Block) (P : List Byte) (n : Nat) (h : P.length % 16 ≠ 0)
    (hn : P.length / 16 = n + 1) :
    xtsProcedure mode C P = Xts.whole C n P ++
      Xts.steal (C (if mode = .decrypt then n + 1 else n)) (C (if mode = .decrypt then n else n + 1))
        (Block.ofList (P.drop (16 * n))) (P.drop (16 * (n + 1))) := by
  cases mode with
  | encrypt =>
    rw [xtsProcedure, Xts.encrypt, if_neg h, hn]
    rfl
  | decrypt =>
    rw [xtsProcedure, Xts.decrypt, if_neg h, hn]
    rfl

/-- What a call has to leave in the output, and that it leaves the rest alone. -/
structure XtsDone (T : Block) (length : Nat) (mem : Buf) (input output : Nat) (r : Status × Buf) : Prop where
  ret : r.1 = .ok
  outside : Buf.SameOutside output length mem r.2
  stored : r.2.read output length = xtsProcedure mode (xtsAt ctx mode T) (mem.read input length)

/-- Whole blocks only: here the output may also start at or before the input. -/
theorem cryptXts_whole (length : Nat) (dataUnit : Block) (mem : Buf) (input output : Nat) (hlen : 16 ≤ length)
    (h0 : length % 16 = 0) (hap : output ≤ input ∨ input + length ≤ output) :
    XtsDone ctx mode (swEncryptBlock ctx.tweak.rk ctx.tweak.nr dataUnit) length mem input output
      (mbedtlsAesCryptXts ctx mode length dataUnit mem input output) := by
  have hcall : mbedtlsAesCryptXts ctx mode length dataUnit mem input output =
      (.ok, (xtsLoop ctx mode (length / 16) (swEncryptBlock ctx.tweak.rk ctx.tweak.nr dataUnit) mem input output).1) := by
    simp only [mbedtlsAesCryptXts, if_neg (Nat.not_lt.mpr hlen), h0, ne_eq, not_true_eq_false, if_false,
      mbedtlsAesCryptEcb]
  obtain ⟨n, rfl⟩ : ∃ n, length = 16 * n := ⟨length / 16, by omega⟩
  have hn : 16 * n / 16 = n := Nat.mul_div_cancel_left n (by decide)
  rw [hcall, hn]
  have hloop := xtsLoop_spec ctx mode n (swEncryptBlock ctx.tweak.rk ctx.tweak.nr dataUnit) mem input output hap
  refine ⟨rfl, hloop.outside, ?_⟩
  rw [hloop.stored, xtsProcedure_whole _ _ _ (by rw [Buf.length_read, h0]), Buf.length_read, hn,
    whole_read _ _ _ _ _ (Nat.le_refl _)]

/-- A rest behind the whole blocks: the output has to stand apart. -/
theorem cryptXts_rest (length : Nat) (dataUnit : Block) (mem : Buf) (input output : Nat) (hlen : 16 ≤ length)
    (h0 : length % 16 ≠ 0) (hap : input + length ≤ output ∨ output + length ≤ input) :
    XtsDone ctx mode (swEncryptBlock ctx.tweak.rk ctx.tweak.nr dataUnit) length mem input output
      (mbedtlsAesCryptXts ctx mode length dataUnit mem input output) := by
  obtain ⟨n, hn⟩ : ∃ n, length / 16 = n + 1 := ⟨length / 16 - 1, by omega⟩
  obtain ⟨k, hk, hk0, rfl⟩ : ∃ k, k < 16 ∧ k ≠ 0 ∧ length = 16 * n + (16 + k) :=
    ⟨length % 16, by omega, h0, by omega⟩
  have hmod : (16 * n + (16 + k)) % 16 = k := by omega
  have hcall : mbedtlsAesCryptXts ctx mode (16 * n + (16 + k)) dataUnit mem input output =
      (.ok, xtsSteal ctx mode
        (xtsLoop ctx mode n (swEncryptBlock ctx.tweak.rk ctx.tweak.nr dataUnit) mem input output).2 k
        (xtsLoop ctx mode n (swEncryptBlock ctx.tweak.rk ctx.tweak.nr dataUnit) mem input output).1
        (input + 16 * n) (output + 16 * n)) := by
    simp only [mbedtlsAesCryptXts, if_neg (Nat.not_lt.mpr hlen), hmod, ne_eq, hk0, not_false_eq_true, if_true,
      mbedtlsAesCryptEcb, hn, Nat.add_sub_cancel]
  rw [hcall]
  generalize hT : swEncryptBlock ctx.tweak.rk ctx.tweak.nr dataUnit = T
  have hloop := xtsLoop_spec ctx mode n T mem input output (by omega)
  generalize xtsLoop ctx mode n T mem input output = r at hloop ⊢
  have hsteal := xtsSteal_spec ctx mode T n k r.1 (input + 16 * n) (output + 16 * n) hk (by omega)
  rw [← hloop.tweak] at hsteal
  obtain ⟨hsame, hlast⟩ := hsteal
  have hblock : r.1.read (input + 16 * n) 16 = mem.read (input + 16 * n) 16 := hloop.outside.read _ _ (by omega)
  have hrest : r.1.read (input + 16 * n + 16) k = mem.read (input + 16 * n + 16) k := hloop.outside.read _ _ (by omega)
  have hfront := hsame.read output (16 * n) (by omega)
  have hdrop : (mem.read input (16 * n + (16 + k))).drop (16 * (n + 1)) = mem.read (input + 16 * n + 16) k := by
    rw [← Nat.add_assoc, Buf.read_add, Nat.mul_succ, List.drop_left' (Buf.length_read ..), ← Nat.add_assoc]
  refine ⟨rfl, (hloop.outside.widen (Nat.le_refl _) (by omega)).trans (hsame.widen (by omega) (by omega)), ?_⟩
  rw [Buf.read_add, hfront, hloop.stored, hlast, hblock, hrest,
    xtsProcedure_steal _ _ _ n (by rw [Buf.length_read, hmod]; exact hk0) (by rw [Buf.length_read, hn]),
    whole_read _ _ _ _ _ (by omega), ofList_drop_read _ _ _ n (by omega), hdrop]

/-- **The call is the procedure**, over the tweaks of the carry chain, and stores nothing else. -/
theorem cryptXts_spec (length : Nat) (dataUnit : Block) (mem : Buf) (input output : Nat) (hlen : 16 ≤ length)
    (hap : input + length ≤ output ∨ output + length ≤ input) :
    XtsDone ctx mode (swEncryptBlock ctx.tweak.rk ctx.tweak.nr dataUnit) length mem input output
      (mbedtlsAesCryptXts ctx mode length dataUnit mem input output) := by
  by_cases h0 : length % 16 = 0
  · exact cryptXts_whole ctx mode length dataUnit mem input output hlen h0 (by omega)
  · exact cryptXts_rest ctx mode length dataUnit mem input output hlen h0 hap

end Memory

/-! ### Keys -/

/-- XTS-AES encryption: block `q` under the cipher of the first half of the key, its tweak
`E(dataUnit) ⊗ α ^ q` under that of the second. -/
noncomputable def xtsAes (size : Fips197.KeySize) (key : Nat → Byte) (dataUnit : Block) (P : List Byte) : List Byte :=
  let key₁ := key
  let key₂ i := key (size.bits / 8 + i)
  Xts.encrypt (Xts.tweaked (Fips197.cipher size key₁) (Xts.tweak (Fips197.cipher size key₂ dataUnit))) P

theorem aesEncrypt_eq_cipher (size : Fips197.KeySize) (key : Nat → Byte) :
    aesEncrypt key size.bits = Fips197.cipher size key := by
  funext b
  have hnr : size.bits / 32 + 6 = size.nr := by
    rw [size.nr_eq]
    exact congrArg (· + 6) (Nat.mul_div_cancel_left _ (by decide))
  rw [aesEncrypt, hnr, swEncryptBlock_eq_cipher]

/-- Both contexts belong to their half of the key. -/
structure AesXtsContext.Ready (ctx : AesXtsContext) (size : Fips197.KeySize) (key : Nat → Byte) : Prop where
  crypt : ctx.crypt.Ready key size.bits
  tweak : ctx.tweak.Ready (fun i => key (size.bits / 8 + i)) size.bits

theorem xtsSetkeyEnc_ok (ctx : AesXtsContext) (size : Fips197.KeySize) (key : Nat → Byte) :
    (mbedtlsAesXtsSetkeyEnc ctx key (2 * size.bits)).1 = .ok ∧
      (mbedtlsAesXtsSetkeyEnc ctx key (2 * size.bits)).2.Ready size key := by
  have hbits : size.bits = 128 ∨ size.bits = 192 ∨ size.bits = 256 := by cases size <;> decide
  have hhalf : 2 * size.bits / 2 = size.bits := Nat.mul_div_cancel_left _ (by decide)
  have hcrypt := (setkeyEnc_ok ctx.crypt key size.bits hbits).1
  have htweak := (setkeyEnc_ok ctx.tweak (fun i => key (size.bits / 8 + i)) size.bits hbits).1
  simp only [mbedtlsAesXtsSetkeyEnc, hhalf, hcrypt, ne_eq, not_true_eq_false, if_false, htweak, true_and]
  exact ⟨setkeyEnc_ready _ _ _ hbits, setkeyEnc_ready _ _ _ hbits⟩

/-- Both directions expand the keys alike. -/
theorem xtsSetkeyDec_eq : mbedtlsAesXtsSetkeyDec = mbedtlsAesXtsSetkeyEnc := rfl

section Keyed
variable {ctx : AesXtsContext} {size : Fips197.KeySize} {key : Nat → Byte}

theorem AesXtsContext.Ready.encryptAt (h : ctx.Ready size key) (T : Block) :
    xtsAt ctx .encrypt T = Xts.tweaked (aesEncrypt key size.bits) (Xts.tweak T) := by
  funext q b
  rw [Xts.tweaked, tweak_eq_iterate, ← h.crypt.swEncrypt]
  rfl

theorem AesXtsContext.Ready.decryptAt (h : ctx.Ready size key) (T : Block) :
    xtsAt ctx .decrypt T = Xts.tweaked (aesDecrypt key size.bits) (Xts.tweak T) := by
  funext q b
  rw [Xts.tweaked, tweak_eq_iterate, ← h.crypt.swDecrypt]
  rfl

/-- The encrypted data unit. -/
theorem AesXtsContext.Ready.start (h : ctx.Ready size key) (dataUnit : Block) :
    swEncryptBlock ctx.tweak.rk ctx.tweak.nr dataUnit =
      Fips197.cipher size (fun i => key (size.bits / 8 + i)) dataUnit := by
  rw [h.tweak.swEncrypt, aesEncrypt_eq_cipher]

end Keyed

/-- **XTS is XTS-AES.** With a key of two halves, each of one of the sizes of the cipher,
encryption of at least a block into memory apart from the input leaves what the standard
says, and decryption of that, wherever it lies, leaves the input. -/
theorem xts_standard (size : Fips197.KeySize) (key : Nat → Byte) (enc₀ dec₀ : AesXtsContext) (length : Nat)
    (dataUnit : Block) (mem mem' : Buf) (input output input' output' : Nat) (hlen : 16 ≤ length)
    (hap : input + length ≤ output ∨ output + length ≤ input)
    (hap' : input' + length ≤ output' ∨ output' + length ≤ input') :
    let enc := mbedtlsAesXtsSetkeyEnc enc₀ key (2 * size.bits)
    let dec := mbedtlsAesXtsSetkeyDec dec₀ key (2 * size.bits)
    let c := mbedtlsAesCryptXts enc.2 .encrypt length dataUnit mem input output
    let p := mbedtlsAesCryptXts dec.2 .decrypt length dataUnit mem' input' output'
    enc.1 = .ok ∧ dec.1 = .ok ∧ c.1 = .ok ∧ p.1 = .ok ∧
      c.2.read output length = xtsAes size key dataUnit (mem.read input length) ∧
      (mem'.read input' length = c.2.read output length → p.2.read output' length = mem.read input length) := by
  intro enc dec c p
  obtain ⟨henc, hencReady⟩ := xtsSetkeyEnc_ok enc₀ size key
  obtain ⟨hdec, hdecReady⟩ := xtsSetkeyEnc_ok dec₀ size key
  rw [← xtsSetkeyDec_eq] at hdec hdecReady
  have hc := cryptXts_spec enc.2 .encrypt length dataUnit mem input output hlen hap
  have hp := cryptXts_spec dec.2 .decrypt length dataUnit mem' input' output' hlen hap'
  rw [hencReady.start] at hc
  rw [hdecReady.start] at hp
  have hstored := hc.stored
  have hrestored := hp.stored
  rw [hencReady.encryptAt] at hstored
  rw [hdecReady.decryptAt] at hrestored
  refine ⟨henc, hdec, hc.ret, hp.ret, ?_, fun hsame => ?_⟩
  · rw [hstored, aesEncrypt_eq_cipher]
    rfl
  · rw [hrestored, hsame, hstored]
    exact Xts.decrypt_encrypt (Xts.tweaked_undo (aesDecrypt_aesEncrypt key size.bits) _) _ (by rw [Buf.length_read]; exact hlen)

/-- A block and one byte, decrypted behind the ciphertext. -/
theorem xts_standard_seventeen :
    let enc := mbedtlsAesXtsSetkeyEnc mbedtlsAesXtsInit (fun i => BitVec.ofNat 8 i) 512
    let dec := mbedtlsAesXtsSetkeyDec mbedtlsAesXtsInit (fun i => BitVec.ofNat 8 i) 512
    let mem : Buf := ⟨fun i => BitVec.ofNat 8 i, []⟩
    let c := mbedtlsAesCryptXts enc.2 .encrypt 17 Block.zero mem 0 17
    let p := mbedtlsAesCryptXts dec.2 .decrypt 17 Block.zero c.2 17 34
    p.2.read 34 17 = mem.read 0 17 :=
  (xts_standard .aes256 (fun i => BitVec.ofNat 8 i) mbedtlsAesXtsInit mbedtlsAesXtsInit 17 Block.zero
    ⟨fun i => BitVec.ofNat 8 i, []⟩ _ 0 17 17 34 (by decide) (.inl (by decide)) (.inl (by decide))).2.2.2.2.2 rfl

end Thingino.Crypto
