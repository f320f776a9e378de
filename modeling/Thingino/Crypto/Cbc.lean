import Thingino.Crypto.WorkingEngine

/-! `mbedtls_aes_crypt_cbc` is one function, whichever side runs it.

Encryption hands whole messages of at least 32 bytes to the engine, but only for
128-bit keys, and falls back to the software loop when the engine is missing,
refuses or stops short; by then it may have left anything in the output. Both
sides are `chain`, the mode itself, over the bytes as blocks (`swCbc_eq`,
`hwCbc_done`), so the call is `chain` (`cryptCbc_eq`) and what it returns does not
depend on the device at all. -/
namespace Thingino.Crypto
open Lib

/-- CBC over blocks: the blocks, and the vector for the next call. -/
def chain (E D : Block → Block) (mode : Direction) (iv : Block) (bs : List Block) : List Block × Block :=
  match mode with
  | .encrypt => (cbcEncrypt E iv bs, (cbcEncrypt E iv bs).getLastD iv)
  | .decrypt => (cbcDecrypt D iv bs, bs.getLastD iv)

theorem length_chain (E D : Block → Block) (mode : Direction) (iv : Block) (bs : List Block) :
    (chain E D mode iv bs).1.length = bs.length := by
  cases mode
  · exact length_cbcEncrypt E iv bs
  · exact length_cbcDecrypt D iv bs

theorem getLastD_append (a b : List Block) (d : Block) : (a ++ b).getLastD d = b.getLastD (a.getLastD d) := by
  induction a generalizing d with
  | nil => rfl
  | cons x a ih => rw [List.cons_append, List.getLastD_cons, List.getLastD_cons, ih]

/-- A message in two pieces, the second from the vector the first left. -/
theorem chain_append (E D : Block → Block) (mode : Direction) (iv : Block) (a b : List Block) :
    chain E D mode iv (a ++ b) =
      ((chain E D mode iv a).1 ++ (chain E D mode (chain E D mode iv a).2 b).1,
        (chain E D mode (chain E D mode iv a).2 b).2) := by
  cases mode with
  | encrypt => simp only [chain, cbcEncrypt_append, getLastD_append]
  | decrypt => simp only [chain, cbcDecrypt_append, getLastD_append]

/-! ### The software loops -/

section Software
variable (ctx : AesContext)

theorem cbcEncryptLoop_eq (n : Nat) (iv : Block) (input : List Byte) (h : input.length = 16 * n) :
    cbcEncryptLoop ctx n iv input =
      (ofBlocks (cbcEncrypt (swEncryptBlock ctx.rk ctx.nr) iv (toBlocks input)),
        (cbcEncrypt (swEncryptBlock ctx.rk ctx.nr) iv (toBlocks input)).getLastD iv) := by
  induction n generalizing iv input with
  | zero =>
    rw [List.length_eq_zero_iff.mp h]
    rfl
  | succ n ih =>
    have hne : input ≠ [] := List.ne_nil_of_length_pos (by omega)
    rw [cbcEncryptLoop, ih _ (input.drop 16) (by rw [List.length_drop]; omega), toBlocks_cons input hne,
      cbcEncrypt, List.getLastD_cons, ofBlocks_cons]

theorem cbcDecryptLoop_eq (n : Nat) (iv : Block) (input : List Byte) (h : input.length = 16 * n) :
    cbcDecryptLoop ctx n iv input =
      (ofBlocks (cbcDecrypt (swDecryptBlock ctx.rk ctx.nr) iv (toBlocks input)),
        (toBlocks input).getLastD iv) := by
  induction n generalizing iv input with
  | zero =>
    rw [List.length_eq_zero_iff.mp h]
    rfl
  | succ n ih =>
    have hne : input ≠ [] := List.ne_nil_of_length_pos (by omega)
    rw [cbcDecryptLoop, ih _ (input.drop 16) (by rw [List.length_drop]; omega), toBlocks_cons input hne,
      cbcDecrypt, List.getLastD_cons, ofBlocks_cons]

theorem swCbc_eq (mode : Direction) (iv : Block) (input : List Byte) (h : input.length % 16 = 0) :
    swCbc ctx mode iv input =
      (ofBlocks (chain (swEncryptBlock ctx.rk ctx.nr) (swDecryptBlock ctx.rk ctx.nr) mode iv (toBlocks input)).1,
        (chain (swEncryptBlock ctx.rk ctx.nr) (swDecryptBlock ctx.rk ctx.nr) mode iv (toBlocks input)).2) := by
  cases mode with
  | encrypt => exact cbcEncryptLoop_eq ctx _ iv input (by omega)
  | decrypt => exact cbcDecryptLoop_eq ctx _ iv input (by omega)

end Software

/-! ### A keyed context -/

/-- Both sides of the context belong to `key`. -/
structure AesContext.Ready (ctx : AesContext) (key : Nat → Byte) (keybits : Nat) : Prop where
  keyed : ctx.Keyed key keybits
  hw : ctx.hasHw = true → keybits = 128 ∧
    ∀ i (h : i < 4), ctx.hwKey[i] = load32Be fun j => key (4 * i + j)

theorem setkeyEnc_ready (ctx : AesContext) (key : Nat → Byte) (keybits : Nat)
    (hk : keybits = 128 ∨ keybits = 192 ∨ keybits = 256) :
    (mbedtlsAesSetkeyEnc ctx key keybits).2.Ready key keybits := by
  refine ⟨(setkeyEnc_ok ctx key keybits hk).2, ?_⟩
  unfold mbedtlsAesSetkeyEnc
  rw [if_neg (by omega)]
  by_cases h128 : keybits = 128
  · simp only [if_pos h128]
    refine fun _ => ⟨h128, fun i hi => ?_⟩
    have hi' : i = 0 ∨ i = 1 ∨ i = 2 ∨ i = 3 := by omega
    rcases hi' with rfl | rfl | rfl | rfl <;> simp
  · simp [if_neg h128]

theorem AesContext.Ready.swEncrypt {ctx : AesContext} {key : Nat → Byte} {keybits : Nat} (h : ctx.Ready key keybits) :
    swEncryptBlock ctx.rk ctx.nr = aesEncrypt key keybits := by
  funext b
  rw [swEncryptBlock_congr h.keyed.schedule, aesEncrypt, h.keyed.rounds]

theorem AesContext.Ready.swDecrypt {ctx : AesContext} {key : Nat → Byte} {keybits : Nat} (h : ctx.Ready key keybits) :
    swDecryptBlock ctx.rk ctx.nr = aesDecrypt key keybits := by
  funext b
  rw [swDecryptBlock_congr h.keyed.schedule, aesDecrypt, h.keyed.rounds]

/-- The mode under the permutation of `key`, on bytes. -/
def aesCbc (key : Nat → Byte) (keybits : Nat) (mode : Direction) (iv : Block) (input : List Byte) :
    List Byte × Block :=
  let r := chain (aesEncrypt key keybits) (aesDecrypt key keybits) mode iv (toBlocks input)
  (ofBlocks r.1, r.2)

theorem AesContext.Ready.swCbc {ctx : AesContext} {key : Nat → Byte} {keybits : Nat} (h : ctx.Ready key keybits)
    (mode : Direction) (iv : Block) (input : List Byte) (hlen : input.length % 16 = 0) :
    swCbc ctx mode iv input = aesCbc key keybits mode iv input := by
  rw [swCbc_eq ctx mode iv input hlen, h.swEncrypt, h.swDecrypt]
  rfl

/-! ### The engine -/

section Hardware
variable {ω : Type} {dev : Device ω} {ctx : AesContext} {key : Nat → Byte} {keybits : Nat}

theorem cbcRequest_carries (h : ctx.Ready key keybits) (hw : ctx.hasHw = true) (mode : Direction) (iv : Block)
    (input : List Byte) : (cbcRequest ctx.hwKey iv mode input).Carries key keybits := by
  obtain ⟨h128, hwords⟩ := h.hw hw
  refine ⟨h.keyed.size, .inr ⟨rfl, h128⟩, rfl, fun i hi hi' => ?_⟩
  have hi4 : i < 4 := by omega
  simp only [cbcRequest, Vector.getElem_ofFn, hi4, dif_pos, hwords i hi4]

theorem cbcRequest_iv (hwKey : Vector Word 4) (mode : Direction) (iv : Block) (input : List Byte) :
    (cbcRequest hwKey iv mode input).CarriesIv iv := by
  intro i hi
  simp [cbcRequest]

/-- A request that reports all of its bytes done has fewer than 2³² of them. -/
theorem done_lt {r : IoctlResult} {n : Nat} (h : done r n) : n < 2 ^ 32 := by
  rw [← h.2]
  exact r.donelen.isLt

theorem answer_cbcRequest (hwKey : Vector Word 4) (mode : Direction) (iv : Block) (input : List Byte) :
    (cbcRequest hwKey iv mode input).answer key keybits iv = (aesCbc key keybits mode iv input).1 := by
  cases mode <;> rfl

theorem length_aesCbc (key : Nat → Byte) (keybits : Nat) (mode : Direction) (iv : Block) (input : List Byte)
    (h : input.length % 16 = 0) :
    (aesCbc key keybits mode iv input).1.length = input.length := by
  simp only [aesCbc, length_ofBlocks, length_chain, length_toBlocks]
  omega

theorem overlay_eq (bytes out : List Byte) (h : out.length = bytes.length) : overlay bytes out = bytes := by
  rw [overlay, List.drop_eq_nil_of_le (by omega), List.append_nil]

theorem length_overlay (bytes out : List Byte) (h : bytes.length ≤ out.length) :
    (overlay bytes out).length = out.length := by
  rw [overlay, List.length_append, List.length_drop]
  omega

theorem length_moved_le (r : IoctlResult) (p : JzAesPara) : (moved r p).length ≤ p.datalen.toNat :=
  List.length_take_le ..

/-- The last block of the output, or of the input, as `hw_cbc` copies it to the vector. -/
theorem lastBlock_eq (bs : List Block) (d : Block) (h : bs ≠ []) :
    Block.ofList ((ofBlocks bs).drop ((ofBlocks bs).length - 16)) = bs.getLastD d := by
  rw [length_ofBlocks, drop_ofBlocks_getLastD bs d h, Block.ofList_toList]

/-- A failed call leaves the vector and the length of the buffer. -/
theorem hwCbc_failed (mode : Direction) (iv : Block) (input output : List Byte) (p : Proc ω)
    (hout : output.length = input.length)
    (h : (hwCbc dev ctx.hwKey iv mode input output p).ret ≠ .ok) :
    (hwCbc dev ctx.hwKey iv mode input output p).iv = iv ∧
      (hwCbc dev ctx.hwKey iv mode input output p).output.length = input.length := by
  have hmoved (r : IoctlResult) : (moved r (cbcRequest ctx.hwKey iv mode input)).length ≤ output.length := by
    refine Nat.le_trans (length_moved_le ..) ?_
    simp only [cbcRequest, BitVec.toNat_ofNat, hout]
    exact Nat.mod_le ..
  revert h
  unfold hwCbc
  dsimp only
  split
  · exact fun _ => ⟨rfl, hout⟩
  · split
    · cases mode <;> simp
    · exact fun _ => ⟨rfl, by rw [length_overlay _ _ (hmoved _), hout]⟩

/-- The saved last ciphertext block is the vector the engine path leaves. -/
theorem savedIv_eq (iv : Block) (input : List Byte) (hlen : input.length % 16 = 0) (hpos : 0 < input.length) :
    Block.ofList (input.drop (input.length - 16)) = (aesCbc key keybits .decrypt iv input).2 := by
  have hne : toBlocks input ≠ [] := by
    apply List.ne_nil_of_length_pos
    rw [length_toBlocks]
    omega
  have hlast := lastBlock_eq (toBlocks input) iv hne
  rw [ofBlocks_toBlocks input hlen] at hlast
  exact hlast

/-- A finished call is the mode. -/
theorem hwCbc_done (hdev : dev.ComputesAes) (h : ctx.Ready key keybits) (hw : ctx.hasHw = true)
    (mode : Direction) (iv : Block) (input output : List Byte) (p : Proc ω)
    (hlen : input.length % 16 = 0) (hpos : 0 < input.length) (hout : output.length = input.length)
    (hok : (hwCbc dev ctx.hwKey iv mode input output p).ret = .ok) :
    (hwCbc dev ctx.hwKey iv mode input output p).output = (aesCbc key keybits mode iv input).1 ∧
      (hwCbc dev ctx.hwKey iv mode input output p).iv = (aesCbc key keybits mode iv input).2 := by
  have hanswer : ∀ w, done (dev.ioctl w (cbcRequest ctx.hwKey iv mode input)).1 input.length →
      overlay (moved (dev.ioctl w (cbcRequest ctx.hwKey iv mode input)).1 (cbcRequest ctx.hwKey iv mode input))
        output = (aesCbc key keybits mode iv input).1 := by
    intro w hd
    have hdata : (cbcRequest ctx.hwKey iv mode input).datalen.toNat = input.length := by
      simp only [cbcRequest, BitVec.toNat_ofNat]
      exact Nat.mod_eq_of_lt (done_lt hd)
    rw [hdev w _ key keybits iv (cbcRequest_carries h hw mode iv input) (cbcRequest_iv _ mode iv input)
      hlen hdata hd, answer_cbcRequest, overlay_eq _ _ (by rw [length_aesCbc key keybits mode iv input hlen, hout])]
  have hne : toBlocks input ≠ [] := by
    apply List.ne_nil_of_length_pos
    rw [length_toBlocks]
    omega
  revert hok
  unfold hwCbc
  dsimp only
  split
  · intro hok
    cases hok
  · split
    · rename_i hd
      cases mode with
      | encrypt =>
        refine fun _ => ⟨hanswer _ hd, ?_⟩
        simp only [hanswer _ hd]
        have hl := length_aesCbc key keybits .encrypt iv input hlen
        rw [← hl]
        refine lastBlock_eq _ iv (List.ne_nil_of_length_pos ?_)
        rw [length_chain]
        exact List.length_pos_of_ne_nil hne
      | decrypt => exact fun _ => ⟨hanswer _ hd, savedIv_eq iv input hlen hpos⟩
    · intro hok
      cases hok

/-- **The call is the mode**, for every device that computes AES when it finishes. -/
theorem cryptCbc_eq (hdev : dev.ComputesAes) (h : ctx.Ready key keybits) (mode : Direction) (iv : Block)
    (input output : List Byte) (p : Proc ω) (hlen : input.length % 16 = 0)
    (hout : output.length = input.length) :
    (mbedtlsAesCryptCbc dev ctx mode iv input output p).ret = .ok ∧
      (mbedtlsAesCryptCbc dev ctx mode iv input output p).output = (aesCbc key keybits mode iv input).1 ∧
      (mbedtlsAesCryptCbc dev ctx mode iv input output p).iv = (aesCbc key keybits mode iv input).2 := by
  have hsw (out : List Byte) (h' : out.length = input.length) :
      overlay (swCbc ctx mode iv input).1 out = (aesCbc key keybits mode iv input).1 := by
    rw [h.swCbc mode iv input hlen, overlay_eq _ _ (by rw [length_aesCbc key keybits mode iv input hlen, h'])]
  unfold mbedtlsAesCryptCbc
  rw [if_neg (by omega)]
  by_cases h0 : input.length = 0
  · have hnil := List.length_eq_zero_iff.mp h0
    rw [if_pos h0, List.length_eq_zero_iff.mp (hout.trans h0), hnil]
    cases mode <;> exact ⟨rfl, rfl, rfl⟩
  · rw [if_neg h0]
    by_cases hw : ctx.hasHw = true ∧ 32 ≤ input.length
    · simp only [if_pos hw]
      by_cases hok : (hwCbc dev ctx.hwKey iv mode input output p).ret = .ok
      · obtain ⟨h1, h2⟩ := hwCbc_done hdev h hw.1 mode iv input output p hlen (by omega) hout hok
        cases mode with
        | encrypt => simp [hok, h1, h2]
        | decrypt =>
          simp only [hok, and_self, if_true, h1, true_and]
          exact savedIv_eq iv input hlen (by omega)
      · obtain ⟨h1, h2⟩ := hwCbc_failed mode iv input output p hout hok
        simp only [hok, false_and, if_false, h1, hsw _ h2, true_and]
        rw [h.swCbc mode iv input hlen]
    · simp only [if_neg hw, reduceCtorEq, if_false, hsw _ hout, true_and]
      rw [h.swCbc mode iv input hlen]

/-! ### Two calls, one call, no engine -/

/-- Some successful call of `mbedtls_aes_setkey_enc` or `_dec` with this key left the context. -/
def AesContext.KeyedBy (ctx : AesContext) (key : Nat → Byte) (keybits : Nat) : Prop :=
  ∃ ctx₀, mbedtlsAesSetkeyEnc ctx₀ key keybits = (.ok, ctx) ∨ mbedtlsAesSetkeyDec ctx₀ key keybits = (.ok, ctx)

theorem AesContext.KeyedBy.ready (h : ctx.KeyedBy key keybits) : ctx.Ready key keybits := by
  obtain ⟨ctx₀, h⟩ := h
  have h : mbedtlsAesSetkeyEnc ctx₀ key keybits = (.ok, ctx) := by
    rcases h with h | h <;> exact h
  have hk : keybits = 128 ∨ keybits = 192 ∨ keybits = 256 := by
    refine Decidable.byContradiction fun hk => ?_
    rw [mbedtlsAesSetkeyEnc, if_pos (by omega)] at h
    cases h
  have := setkeyEnc_ready ctx₀ key keybits hk
  rwa [h] at this

theorem setkeyEnc_keyedBy (ctx₀ : AesContext) (key : Nat → Byte) (keybits : Nat)
    (hk : keybits = 128 ∨ keybits = 192 ∨ keybits = 256) :
    (mbedtlsAesSetkeyEnc ctx₀ key keybits).2.KeyedBy key keybits :=
  ⟨ctx₀, .inl (Prod.ext (setkeyEnc_ok ctx₀ key keybits hk).1 rfl)⟩

theorem aesCbc_append (key : Nat → Byte) (keybits : Nat) (mode : Direction) (iv : Block) (a b : List Byte) (ha : a.length % 16 = 0) :
    aesCbc key keybits mode iv (a ++ b) =
      ((aesCbc key keybits mode iv a).1 ++ (aesCbc key keybits mode (aesCbc key keybits mode iv a).2 b).1,
        (aesCbc key keybits mode (aesCbc key keybits mode iv a).2 b).2) := by
  simp only [aesCbc, toBlocks_append a b ha, chain_append, ofBlocks_append]

theorem aesCbc_decrypt_encrypt (iv : Block) (x : List Byte) (hx : x.length % 16 = 0) :
    (aesCbc key keybits .decrypt iv (aesCbc key keybits .encrypt iv x).1).1 = x := by
  simp only [aesCbc, chain, toBlocks_ofBlocks]
  rw [cbcDecrypt_cbcEncrypt _ _ (aesDecrypt_aesEncrypt key keybits), ofBlocks_toBlocks x hx]

/-- **Two calls are one call and neither depends on the engine.** A message in two
pieces, the second from the vector the first left, gives the output and the vector
of one call and of the software loop; decrypting an encryption gives the message
back. The device may be absent, refuse or stop short anywhere. -/
theorem cryptCbc_chains (hdev : dev.ComputesAes) :
    (∀ (ctx : AesContext) (key : Nat → Byte) (keybits : Nat), ctx.KeyedBy key keybits →
      ∀ (mode : Direction) (iv : Block) (a b outA outB out : List Byte) (pA pB p : Proc ω),
        a.length % 16 = 0 → b.length % 16 = 0 → outA.length = a.length → outB.length = b.length →
        out.length = (a ++ b).length →
        let rA := mbedtlsAesCryptCbc dev ctx mode iv a outA pA
        let rB := mbedtlsAesCryptCbc dev ctx mode rA.iv b outB pB
        let r := mbedtlsAesCryptCbc dev ctx mode iv (a ++ b) out p
        rA.ret = .ok ∧ rB.ret = .ok ∧ r.ret = .ok ∧ rA.output ++ rB.output = r.output ∧ rB.iv = r.iv ∧
          (r.output, r.iv) = swCbc ctx mode iv (a ++ b)) ∧
    (∀ (enc dec : AesContext) (key : Nat → Byte) (keybits : Nat), enc.KeyedBy key keybits →
      dec.KeyedBy key keybits → ∀ (iv : Block) (x out out' : List Byte) (p p' : Proc ω),
        x.length % 16 = 0 → out.length = x.length → out'.length = x.length →
        let c := mbedtlsAesCryptCbc dev enc .encrypt iv x out p
        let d := mbedtlsAesCryptCbc dev dec .decrypt iv c.output out' p'
        c.ret = .ok ∧ d.ret = .ok ∧ d.output = x) := by
  constructor
  · intro ctx key keybits hctx mode iv a b outA outB out pA pB p ha hb hoA hoB ho
    have hab : (a ++ b).length % 16 = 0 := by
      rw [List.length_append]
      omega
    have hready := hctx.ready
    obtain ⟨hA, hAo, hAv⟩ := cryptCbc_eq hdev hready mode iv a outA pA ha hoA
    obtain ⟨hB, hBo, hBv⟩ := cryptCbc_eq hdev hready mode (aesCbc key keybits mode iv a).2 b outB pB hb hoB
    obtain ⟨hr, hro, hrv⟩ := cryptCbc_eq hdev hready mode iv (a ++ b) out p hab ho
    have happ := aesCbc_append key keybits mode iv a b ha
    intro rA rB r
    have hrA : rA.iv = (aesCbc key keybits mode iv a).2 := hAv
    have hrB : rB = mbedtlsAesCryptCbc dev ctx mode (aesCbc key keybits mode iv a).2 b outB pB := by
      rw [← hrA]
    refine ⟨hA, by rw [hrB, hB], hr, ?_, ?_, ?_⟩
    · rw [hrB, hBo, hro, hAo, happ]
    · rw [hrB, hBv, hrv, happ]
    · rw [hro, hrv, hready.swCbc mode iv _ hab]
  · intro enc dec key keybits henc hdec iv x out out' p p' hx ho ho' c d
    obtain ⟨hc, hco, -⟩ := cryptCbc_eq hdev henc.ready .encrypt iv x out p hx ho
    have hlen := length_aesCbc key keybits .encrypt iv x hx
    have hclen : c.output.length = x.length := by rw [hco, hlen]
    obtain ⟨hd, hdo, -⟩ := cryptCbc_eq hdev hdec.ready .decrypt iv c.output out' p' (by rw [hclen, hx])
      (by rw [ho', hclen])
    refine ⟨hc, hd, ?_⟩
    rw [hdo, hco, aesCbc_decrypt_encrypt iv x hx]

end Hardware

/-- One block on its own stays below the engine's threshold, two blocks go to it, and
the vector carries over between the two. -/
theorem cryptCbc_chains_softwareEngine :
    let ctx := (mbedtlsAesSetkeyEnc mbedtlsAesInit (fun i => BitVec.ofNat 8 i) 128).2
    let rA := mbedtlsAesCryptCbc softwareEngine ctx .encrypt Block.zero (zeros 16) (zeros 16) ⟨-1, ()⟩
    let rB := mbedtlsAesCryptCbc softwareEngine ctx .encrypt rA.iv (zeros 32) (zeros 32) rA.proc
    rA.output ++ rB.output =
      (mbedtlsAesCryptCbc softwareEngine ctx .encrypt Block.zero (zeros 16 ++ zeros 32) (zeros 48) ⟨-1, ()⟩).output :=
  ((cryptCbc_chains softwareEngine_computes).1 _ _ 128 (setkeyEnc_keyedBy mbedtlsAesInit _ 128 (.inl rfl))
    .encrypt Block.zero (zeros 16) (zeros 32) (zeros 16) (zeros 32) (zeros 48) _ _ _
    rfl rfl rfl rfl rfl).2.2.2.1

end Thingino.Crypto
