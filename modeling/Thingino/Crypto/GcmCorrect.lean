import Thingino.Crypto.EcbBulk
import Thingino.Crypto.GcmTable
import Thingino.Lib.Aead

/-! The one-shot calls of `gcm_alt.c` are Galois/Counter Mode.

A context is `Coherent` with a key when everything it stores was derived from it.
Over such a context the hash of the code is `Gcm.ghash` (`ghashUpdate_eq`), the
pre-counter block is `Gcm.j0` (`gcmDeriveJ0_eq`), the counter blocks are `inc32` of
one another (`gcmBuildCtrBlocks_holds`), and so a record that goes through leaves
the mode's ciphertext and tag. A device that finishes what it starts lets every
record through. -/
namespace Thingino.Crypto
open Lib

/-- Everything in the context comes from one key. -/
structure GcmContext.Coherent (ctx : GcmContext) (key : Nat → Byte) (keybits : Nat) : Prop where
  aes : ctx.aesSw.Keyed key keybits
  hw : HwKeyed ctx.hwKey key keybits
  bits : ctx.keybits = keybits
  subkey : ctx.H = aesEncrypt key keybits Block.zero
  table : ctx.Tabled ctx.H.bits
  scratchCtr : ctx.scratchCtr.isSome
  scratchKs : ctx.scratchKs.isSome

/-! ### The hash -/

section Hash
variable {ctx : GcmContext} {H : BitVec 128} (hT : ctx.Tabled H)
include hT

theorem gcmMult_xor (Y b : Block) : gcmMult ctx (Block.xor Y b) = Block.ofBits (Gf128.mul (Y.bits ^^^ b.bits) H) := by
  rw [gcmMult_eq hT, Block.bits_xor]

theorem foldl_gcmMult (Y : Block) (bs : List Block) :
    bs.foldl (fun Y b => gcmMult ctx (Block.xor Y b)) Y =
      Block.ofBits ((bs.map Block.bits).foldl (fun Y X => Gf128.mul (Y ^^^ X) H) Y.bits) := by
  induction bs generalizing Y with
  | nil => exact (Block.ofBits_bits Y).symm
  | cons b bs ih => rw [List.foldl_cons, ih, List.map_cons, List.foldl_cons, gcmMult_xor hT, Block.bits_ofBits]

omit hT in
/-- The loop and the short last block together run over all blocks. -/
theorem ghashUpdate_blocks (Y : Block) (data : List Byte) :
    ghashUpdate ctx Y data = (toBlocks data).foldl (fun Y b => gcmMult ctx (Block.xor Y b)) Y := by
  have hfull : (List.range (data.length / 16)).foldl
      (fun Y k => gcmMult ctx (Block.xor Y (Block.ofList (data.drop (16 * k))))) Y =
      ((List.range (data.length / 16)).map fun k => Block.ofList (data.drop (16 * k))).foldl
        (fun Y b => gcmMult ctx (Block.xor Y b)) Y := by
    rw [List.foldl_map]
  unfold ghashUpdate toBlocks
  dsimp only
  rw [hfull]
  by_cases h : 16 * (data.length / 16) < data.length
  · rw [if_pos h, show (data.length + 15) / 16 = data.length / 16 + 1 by omega, List.range_succ, List.map_append,
      List.foldl_append]
    rfl
  · rw [if_neg h, show (data.length + 15) / 16 = data.length / 16 by omega]

theorem ghashUpdate_eq (Y : Block) (data : List Byte) :
    ghashUpdate ctx Y data =
      Block.ofBits ((Gcm.padded data).foldl (fun Y X => Gf128.mul (Y ^^^ X) H) Y.bits) := by
  rw [ghashUpdate_blocks, foldl_gcmMult hT, Gcm.padded]

end Hash

theorem ofNat_mul_eight (n : Nat) : BitVec.ofNat 64 n * 8#64 = BitVec.ofNat 64 (8 * n) := by
  rw [Nat.mul_comm, BitVec.ofNat_mul]

/-- A length block: two 64-bit counts. -/
theorem padded_lengths (a b : BitVec 64) : Gcm.padded (putBe64 a ++ putBe64 b) = [a ++ b] := by
  have hne : putBe64 a ++ putBe64 b ≠ [] := by simp [putBe64, store64Be]
  have hdrop : (putBe64 a ++ putBe64 b).drop 16 = [] := rfl
  rw [Gcm.padded, toBlocks_cons _ hne, hdrop, putBe64, putBe64, ofList_store64Be, toBlocks_nil, List.map_singleton,
    Block.bits_ofBits]

theorem zeros_eight : zeros 8 = putBe64 0#64 := by decide

section Context
variable {ctx : GcmContext} {key : Nat → Byte} {keybits : Nat} (h : ctx.Coherent key keybits)
include h

theorem GcmContext.Coherent.hashKey : Gcm.hashKey (aesEncrypt key keybits) = ctx.H.bits := by
  rw [Gcm.hashKey, h.subkey]

theorem gcmDeriveJ0_eq (iv : List Byte) :
    gcmDeriveJ0 ctx iv = Block.ofBits (Gcm.j0 (aesEncrypt key keybits) iv) := by
  unfold gcmDeriveJ0 Gcm.j0
  by_cases h12 : iv.length = 12
  · rw [if_pos h12, if_pos h12, Block.ofBits_bits]
  · rw [if_neg h12, if_neg h12]
    dsimp only
    rw [ghashUpdate_eq h.table, ghashUpdate_eq h.table, zeros_eight, padded_lengths, ofNat_mul_eight,
      Block.bits_ofBits, h.hashKey, Gcm.ghash_append, Block.bits_zero]
    rfl

theorem gcmComputeTag_eq (iv ad ct : List Byte) :
    (gcmComputeTag ctx iv ad ct).1 = .ok ∧
      (gcmComputeTag ctx iv ad ct).2.toList = Gcm.tag (aesEncrypt key keybits) iv ad ct := by
  unfold gcmComputeTag
  dsimp only
  rw [h.aes.encrypt]
  refine ⟨rfl, ?_⟩
  rw [gcmDeriveJ0_eq h, ghashUpdate_eq h.table, ghashUpdate_eq h.table, ghashUpdate_eq h.table, padded_lengths,
    ofNat_mul_eight, ofNat_mul_eight, Block.bits_ofBits, Block.bits_ofBits, Block.toList_xor, Gcm.tag_eq,
    Gcm.authHash, h.hashKey, Gcm.ghash_append, Gcm.ghash_append, Block.bits_zero]
  rfl

end Context

/-! ### The counter blocks -/

/-- The counter is the low 32 bits of the block. -/
theorem load32Be_counter (J0 : Block) :
    (load32Be fun j => J0.toList.getD (12 + j) 0#8) = J0.bits.extractLsb' 0 32 := by
  apply BitVec.eq_of_getLsbD_eq
  intro k hk
  have hget (i : Nat) (hi : i < 16) : J0.toList.getD i 0#8 = J0[i] := by
    simp [List.getD_eq_getElem?_getD, hi]
  rw [BitVec.getLsbD_extractLsb', decide_eq_true hk, Bool.true_and, Nat.zero_add,
    show k = 8 * (k / 8) + k % 8 by omega, getLsbD_load32Be _ _ _ (by omega) (by omega), hget _ (by omega),
    Block.getLsbD_bits J0 _ _ (by omega) (by omega)]
  simp only [show 12 + (3 - k / 8) = 15 - k / 8 by omega]

theorem getElem_counterBytes (c : Word) (i : Nat) (h : i < 4) :
    [(c >>> 24).setWidth 8, (c >>> 16).setWidth 8, (c >>> 8).setWidth 8, c.setWidth 8].getD i 0#8 =
      c.extractLsb' (8 * (3 - i)) 8 := by
  interval_cases i <;> rfl

/-- A counter block: the first twelve bytes fixed, then the counter. -/
theorem toList_counterBlock (J0 : Block) (c : Word) :
    (Block.ofBits (J0.bits.extractLsb' 32 96 ++ c)).toList =
      J0.toList.take 12 ++ [(c >>> 24).setWidth 8, (c >>> 16).setWidth 8, (c >>> 8).setWidth 8, c.setWidth 8] := by
  rw [← Block.toList_ofList (J0.toList.take 12 ++ _) (by simp)]
  refine congrArg Vector.toList ?_
  apply Vector.ext
  intro i hi
  apply BitVec.eq_of_getLsbD_eq
  intro r hr
  rw [Block.getElem_ofBits, BitVec.getLsbD_extractLsb', Block.getElem_ofList, decide_eq_true hr, Bool.true_and]
  by_cases h12 : i < 12
  · have hget : (J0.toList.take 12 ++ [(c >>> 24).setWidth 8, (c >>> 16).setWidth 8, (c >>> 8).setWidth 8,
        c.setWidth 8]).getD i 0#8 = J0[i] := by
      rw [List.getD_eq_getElem?_getD, List.getElem?_append_left (by simp [h12])]
      simp [h12]
    rw [hget, BitVec.getLsbD_append, if_neg (by omega), BitVec.getLsbD_extractLsb', decide_eq_true (by omega),
      Bool.true_and, show 32 + (8 * (15 - i) + r - 32) = 8 * (15 - i) + r by omega,
      Block.getLsbD_bits J0 _ _ (by omega) hr]
    simp only [show 15 - (15 - i) = i by omega]
  · have hget := getElem_counterBytes c (i - 12) (by omega)
    have hlen : (J0.toList.take 12).length = 12 := by simp
    rw [List.getD_eq_getElem?_getD, List.getElem?_append_right (by omega), hlen, ← List.getD_eq_getElem?_getD,
      hget, BitVec.getLsbD_append, if_pos (by omega), BitVec.getLsbD_extractLsb', decide_eq_true hr, Bool.true_and,
      show 8 * (3 - (i - 12)) + r = 8 * (15 - i) + r by omega]

theorem append_extract (v : BitVec 128) : v.extractLsb' 32 96 ++ v.extractLsb' 0 32 = v := by
  apply BitVec.eq_of_getLsbD_eq
  intro k hk
  refine (BitVec.getLsbD_append (x := v.extractLsb' 32 96) (y := v.extractLsb' 0 32)).trans ?_
  split
  · rw [BitVec.getLsbD_extractLsb', decide_eq_true (by omega), Bool.true_and, Nat.zero_add]
  · rw [BitVec.getLsbD_extractLsb', decide_eq_true (by omega), Bool.true_and, show 32 + (k - 32) = k by omega]

theorem iterate_inc32_bits (v : BitVec 128) (n : Nat) :
    Gcm.inc32^[n] v = v.extractLsb' 32 96 ++ (v.extractLsb' 0 32 + BitVec.ofNat 32 n) := by
  conv_lhs => rw [← append_extract v]
  rw [Gcm.iterate_inc32]

/-- **The counter stream**: `inc32` of the pre-counter block, over and over. -/
theorem gcmBuildCtrBlocks_holds (ctr : Buf) (J0 : Block) (n : Nat) :
    (gcmBuildCtrBlocks ctr J0 n).2 = J0.bits.extractLsb' 0 32 + BitVec.ofNat 32 n ∧
      (gcmBuildCtrBlocks ctr J0 n).1.Holds
        (ofBlocks ((List.range n).map fun i => Block.ofBits (Gcm.inc32^[i + 1] J0.bits))) := by
  induction n with
  | zero => exact ⟨by rw [BitVec.add_zero, gcmBuildCtrBlocks, load32Be_counter], rfl⟩
  | succ n ih =>
    obtain ⟨hc, hh⟩ := ih
    have hc' : (gcmBuildCtrBlocks ctr J0 n).2 + 1#32 = J0.bits.extractLsb' 0 32 + BitVec.ofNat 32 (n + 1) := by
      rw [hc, BitVec.add_assoc, BitVec.ofNat_add]
    refine ⟨hc', ?_⟩
    have hlen : (ofBlocks ((List.range n).map fun i => Block.ofBits (Gcm.inc32^[i + 1] J0.bits))).length = n * 16 := by
      rw [length_ofBlocks, List.length_map, List.length_range, Nat.mul_comm]
    have h1 := hh.write (J0.toList.take 12)
    have h2 := h1.write [((J0.bits.extractLsb' 0 32 + BitVec.ofNat 32 (n + 1)) >>> 24).setWidth 8,
      ((J0.bits.extractLsb' 0 32 + BitVec.ofNat 32 (n + 1)) >>> 16).setWidth 8,
      ((J0.bits.extractLsb' 0 32 + BitVec.ofNat 32 (n + 1)) >>> 8).setWidth 8,
      (J0.bits.extractLsb' 0 32 + BitVec.ofNat 32 (n + 1)).setWidth 8]
    rw [List.append_assoc, ← toList_counterBlock, List.length_append, hlen, ← iterate_inc32_bits] at h2
    rw [List.range_succ, List.map_append, ofBlocks_append, List.map_singleton, ofBlocks_cons, ofBlocks_nil,
      List.append_nil, gcmBuildCtrBlocks]
    dsimp only
    rw [hc']
    simpa using h2

/-! ### A record -/

theorem xorBytes_take (a b : List Byte) : xorBytes a (b.take a.length) = xorBytes a b := by
  have h := take_xorBytes a.length a b
  rw [List.take_of_length_le (by rw [length_xorBytes]; omega), List.take_length] at h
  exact h.symm

/-- A buffer that holds the keystream turns a record into counter mode. -/
theorem xorBytes_read (E : Block → Block) (ctr : Nat → Block) (input : List Byte) (ks : Buf)
    (h : ks.read 0 ((input.length + 15) / 16 * 16) = keystream E ctr ((input.length + 15) / 16)) :
    xorBytes input (ks.read 0 input.length) = ctrMode E ctr input := by
  have hsub := Buf.read_sub ks 0 ((input.length + 15) / 16 * 16) 0 input.length (by omega)
  rw [Nat.add_zero, h, List.drop_zero] at hsub
  rw [hsub, xorBytes_take, ctrMode]

/-- Which buffer content a call sees in its scratch is of no consequence. -/
theorem GcmContext.Coherent.scratch {ctx : GcmContext} {key : Nat → Byte} {keybits : Nat}
    (h : ctx.Coherent key keybits) (ctr ks : Buf) :
    { ctx with scratchCtr := some ctr, scratchKs := some ks }.Coherent key keybits :=
  ⟨h.aes, h.hw, h.bits, h.subkey, h.table, rfl, rfl⟩

section Record
variable {ω : Type} {dev : Device ω} {ctx : GcmContext} {key : Nat → Byte} {keybits : Nat}

theorem read_keystream (E : Block → Block) (ctr : Nat → Block) (n : Nat) :
    ofBlocks (((List.range n).map ctr).map E) = keystream E ctr n := by
  rw [List.map_map]
  rfl

/-- A call over a coherent context ends with the mode's bytes, or fails and leaves the output alone. -/
theorem gcmCryptInternal_spec (hdev : dev.ComputesAes) (h : ctx.Coherent key keybits)
    (iv input output : List Byte) (p : Proc ω) :
    ∃ ret out ctx' p', gcmCryptInternal dev ctx iv input output p = some (ret, out, ctx', p') ∧
      ctx'.Coherent key keybits ∧ ctx'.haveKey = ctx.haveKey ∧
      (ret = .ok ∧ out = overlay (Gcm.encrypt (aesEncrypt key keybits) iv input) output ∨
        ret = .failed ∧ out = output ∧ (input.length ≤ gcmScratchSize → ¬ dev.AlwaysDone)) := by
  obtain ⟨ctr, hctr⟩ := Option.isSome_iff_exists.mp h.scratchCtr
  obtain ⟨ks, hks⟩ := Option.isSome_iff_exists.mp h.scratchKs
  unfold gcmCryptInternal
  by_cases h0 : input.length = 0
  · rw [if_pos h0]
    refine ⟨_, _, _, _, rfl, h, rfl, .inl ⟨rfl, ?_⟩⟩
    rw [List.length_eq_zero_iff.mp h0]
    rfl
  · rw [if_neg h0]
    by_cases hbig : gcmScratchSize < input.length
    · rw [if_pos hbig]
      exact ⟨_, _, _, _, rfl, h, rfl, .inr ⟨rfl, rfl, fun hle => absurd hle (by omega)⟩⟩
    · rw [if_neg hbig, hctr, hks]
      dsimp only
      generalize useHw (gcmHwFdGet dev) gcmHwMinSize input.length p = choice
      obtain ⟨hw, q⟩ := choice
      obtain ⟨-, hctr'⟩ := gcmBuildCtrBlocks_holds ctr (gcmDeriveJ0 ctx iv) ((input.length + 15) / 16)
      generalize (gcmBuildCtrBlocks ctr (gcmDeriveJ0 ctx iv) ((input.length + 15) / 16)).1 = ctr' at hctr' ⊢
      have hcs : ((List.range ((input.length + 15) / 16)).map fun i =>
          Block.ofBits (Gcm.inc32^[i + 1] (gcmDeriveJ0 ctx iv).bits)).length = (input.length + 15) / 16 := by simp
      have hread := ecbBulk_read hdev hw h.aes h.hw _ hctr' ks q
      have hdone := fun hd : dev.AlwaysDone => ecbBulk_ok hd hw ctx.hwKey ctx.keybits ctx.aesSw ctr'
        ((input.length + 15) / 16) (by simp only [gcmScratchSize] at hbig; omega) ks q
      rw [hcs, ← h.bits, read_keystream] at hread
      generalize ecbBulk dev hw ctx.hwKey ctx.keybits ctx.aesSw ctr' ((input.length + 15) / 16) ks q = r at hread hdone ⊢
      obtain ⟨ret, ks', q'⟩ := r
      dsimp only at hread hdone ⊢
      by_cases hok : ret = .ok
      · rw [if_pos hok]
        refine ⟨_, _, _, _, rfl, h.scratch ctr' ks', rfl, .inl ⟨rfl, ?_⟩⟩
        rw [xorBytes_read _ _ input ks' (hread hok), gcmDeriveJ0_eq h, Block.bits_ofBits, h.bits]
        rfl
      · rw [if_neg hok]
        exact ⟨_, _, _, _, rfl, h.scratch ctr' ks', rfl, .inr ⟨rfl, rfl, fun _ hd => hok (hdone hd)⟩⟩

/-! ### Keys -/

theorem mallocUnless_none {b : Option Buf} {size : Nat} {q : Proc ω} (h : (mallocUnless dev b size q).1.isNone) :
    b = none := by
  cases b with
  | none => rfl
  | some b => cases h

/-- The key is loaded everywhere; the scratch pointers and `have_key` stay as they are. -/
theorem gcmLoadKey_spec (ctx : GcmContext) (key : Nat → Byte) (keybits : Nat)
    (hk : keybits = 128 ∨ keybits = 192 ∨ keybits = 256) :
    ∃ c, gcmLoadKey ctx key keybits (keybits / 32) = (.ok, c) ∧ c.aesSw.Keyed key keybits ∧
      HwKeyed c.hwKey key keybits ∧ c.H = aesEncrypt key keybits Block.zero ∧ c.Tabled c.H.bits ∧
      c.haveKey = ctx.haveKey ∧ c.scratchCtr = ctx.scratchCtr ∧ c.scratchKs = ctx.scratchKs := by
  obtain ⟨hret, hkeyed⟩ := setkeyEnc_ok ctx.aesSw key keybits hk
  obtain ⟨aes, haes⟩ : ∃ aes, mbedtlsAesSetkeyEnc ctx.aesSw key keybits = (.ok, aes) := ⟨_, Prod.ext hret rfl⟩
  rw [haes] at hkeyed
  have hload : gcmLoadKey ctx key keybits (keybits / 32) = (.ok, gcmGenTable { ctx with
      hwKey := packKey key (keybits / 32) ctx.hwKey, aesSw := aes, H := aesEncrypt key keybits Block.zero }) := by
    simp only [gcmLoadKey, haes, hkeyed.encrypt]
  have hsame := gcmGenTable_sameRest { ctx with
    hwKey := packKey key (keybits / 32) ctx.hwKey, aesSw := aes, H := aesEncrypt key keybits Block.zero }
  have htab := gcmGenTable_tabled { ctx with
    hwKey := packKey key (keybits / 32) ctx.hwKey, aesSw := aes, H := aesEncrypt key keybits Block.zero }
  refine ⟨_, hload, ?_, ?_, hsame.H, ?_, hsame.haveKey, hsame.scratchCtr, hsame.scratchKs⟩
  · rw [hsame.aesSw]
    exact hkeyed
  · rw [hsame.hwKey]
    exact hwKeyed_packKey key keybits ctx.hwKey
  · rw [hsame.H]
    exact htab

/-- What a call of `mbedtls_gcm_setkey` can do: reject its arguments and change nothing,
fail to get scratch it did not have, or leave everything derived from its key. -/
theorem gcmSetkey_cases (dev : Device ω) (ctx : GcmContext) (cipher : CipherId) (key : Nat → Byte) (keybits : Nat) (p : Proc ω) :
    let r := mbedtlsGcmSetkey dev ctx cipher key keybits p
    r.1 = .gcmBadInput ∧ r.2.1 = ctx ∨
    r.1 = .hwAccelFailed ∧ r.2.1.haveKey = ctx.haveKey ∧ (ctx.scratchCtr = none ∨ ctx.scratchKs = none) ∨
    r.1 = .ok ∧ r.2.1.haveKey = true ∧ r.2.1.Coherent key keybits := by
  unfold mbedtlsGcmSetkey
  by_cases hc : cipher ≠ .aes
  · rw [if_pos hc]
    exact .inl ⟨rfl, rfl⟩
  · rw [if_neg hc]
    cases hn : keybitsToNwords keybits with
    | none => exact .inl ⟨rfl, rfl⟩
    | some nwords =>
      obtain ⟨hk, rfl⟩ := keybitsToNwords_some hn
      obtain ⟨c, hload, hkeyed, hhw, hH, htab, hhave, hctr, hks⟩ := gcmLoadKey_spec ctx key keybits hk
      simp only [hload, gcmAllocScratch]
      generalize hm₁ : mallocUnless dev c.scratchCtr gcmScratchSize p = m₁
      generalize hm₂ : mallocUnless dev c.scratchKs gcmScratchSize m₁.2 = m₂
      by_cases hnull : m₁.1.isNone ∨ m₂.1.isNone
      · rw [if_pos hnull]
        refine .inr (.inl ⟨rfl, hhave, hnull.imp (fun h => ?_) fun h => ?_⟩)
        · rw [← hm₁, hctr] at h
          exact mallocUnless_none h
        · rw [← hm₂, hks] at h
          exact mallocUnless_none h
      · rw [if_neg hnull]
        simp only [not_or, Bool.not_eq_true, Option.isNone_eq_false_iff] at hnull
        exact .inr (.inr ⟨rfl, rfl, hkeyed, hhw, rfl, hH, htab, hnull.1, hnull.2⟩)

theorem mallocUnless_isSome (hm : ∀ w n, (dev.malloc w n).1.isSome) (b : Option Buf) (size : Nat) (q : Proc ω) :
    (mallocUnless dev b size q).1.isNone = false := by
  cases b with
  | none => exact Option.isNone_eq_false_iff.mpr (hm q.world size)
  | some b => rfl

/-- With memory to be had, a key of a size AES has is accepted. -/
theorem gcmSetkey_ok (hm : ∀ w n, (dev.malloc w n).1.isSome) (ctx : GcmContext) (key : Nat → Byte) (keybits : Nat)
    (hk : keybits = 128 ∨ keybits = 192 ∨ keybits = 256) (p : Proc ω) :
    (mbedtlsGcmSetkey dev ctx .aes key keybits p).1 = .ok := by
  have hn : keybitsToNwords keybits = some (keybits / 32) := by
    rcases hk with rfl | rfl | rfl <;> rfl
  obtain ⟨c, hload, -⟩ := gcmLoadKey_spec ctx key keybits hk
  have hctr := mallocUnless_isSome hm c.scratchCtr gcmScratchSize p
  have hks := mallocUnless_isSome hm c.scratchKs gcmScratchSize (mallocUnless dev c.scratchCtr gcmScratchSize p).2
  simp [mbedtlsGcmSetkey, hn, hload, gcmAllocScratch, hctr, hks]

/-! ### The one-shot calls -/

theorem foldl_or_eq_zero (l : List Byte) (a : Byte) : l.foldl (· ||| ·) a = 0#8 ↔ a = 0#8 ∧ ∀ x ∈ l, x = 0#8 := by
  induction l generalizing a with
  | nil => simp
  | cons x l ih => rw [List.foldl_cons, ih, BitVec.or_eq_zero_iff, List.forall_mem_cons, and_assoc]

/-- The constant-time comparison is a comparison. -/
theorem tagDiff_eq_zero (expected tag : List Byte) (h : tag.length ≤ expected.length) :
    tagDiff expected tag = 0#8 ↔ tag = expected.take tag.length := by
  have hcomm : xorBytes expected tag = xorBytes (expected.take tag.length) tag := by
    have := take_xorBytes tag.length expected tag
    rwa [List.take_of_length_le (by rw [length_xorBytes]; omega), List.take_length] at this
  have hlen : (expected.take tag.length).length = tag.length := by
    rw [List.length_take]
    omega
  rw [tagDiff, foldl_or_eq_zero, hcomm]
  constructor
  · rintro ⟨-, h0⟩
    exact (eq_of_xorBytes_zero _ _ hlen h0).symm
  · intro heq
    refine ⟨rfl, ?_⟩
    rw [← heq]
    intro x hx
    obtain ⟨i, hi, rfl⟩ := List.mem_iff_getElem.mp hx
    simp [xorBytes]

/-- Some successful call of `mbedtls_gcm_setkey` with this key left the context. -/
def GcmContext.KeyedBy (dev : Device ω) (ctx : GcmContext) (key : Nat → Byte) (keybits : Nat) : Prop :=
  ∃ ctx₀ cipher p₀ p, mbedtlsGcmSetkey dev ctx₀ cipher key keybits p₀ = (.ok, ctx, p)

theorem GcmContext.KeyedBy.coherent (h : ctx.KeyedBy dev key keybits) :
    ctx.haveKey = true ∧ ctx.Coherent key keybits := by
  obtain ⟨ctx₀, cipher, p₀, p, h⟩ := h
  have hcases := gcmSetkey_cases dev ctx₀ cipher key keybits p₀
  rw [h] at hcases
  rcases hcases with ⟨h, -⟩ | ⟨h, -⟩ | ⟨-, h⟩
  · cases h
  · cases h
  · exact h

theorem cryptAndTag_spec (hdev : dev.ComputesAes) (hdone : dev.AlwaysDone) (h : ctx.Coherent key keybits)
    (hkey : ctx.haveKey = true) (iv ad pt out tag : List Byte) (p : Proc ω) (hiv : 1 ≤ iv.length)
    (hpt : pt.length ≤ gcmScratchSize) (htag : 1 ≤ tag.length ∧ tag.length ≤ 16) (hout : out.length = pt.length) :
    ∃ r, mbedtlsGcmCryptAndTag dev ctx .encrypt iv ad pt out tag p = some r ∧ r.ret = .ok ∧
      r.output = Gcm.encrypt (aesEncrypt key keybits) iv pt ∧
      r.tag = (Gcm.tag (aesEncrypt key keybits) iv ad r.output).take tag.length ∧
      r.ctx.haveKey = true ∧ r.ctx.Coherent key keybits := by
  obtain ⟨ret, out', ctx', p', hcrypt, hctx', hkey', hcases⟩ := gcmCryptInternal_spec hdev h iv pt out p
  rcases hcases with ⟨rfl, hout'⟩ | ⟨-, -, hfail⟩
  · rw [overlay, List.drop_eq_nil_of_le (by rw [Gcm.length_encrypt]; omega), List.append_nil] at hout'
    have htake : out'.take pt.length = out' := List.take_of_length_le (by rw [hout', Gcm.length_encrypt])
    obtain ⟨htagOk, htagEq⟩ := gcmComputeTag_eq hctx' iv ad out'
    have hval : mbedtlsGcmCryptAndTag dev ctx .encrypt iv ad pt out tag p =
        some ⟨.ok, out', (gcmComputeTag ctx' iv ad out').2.toList.take tag.length, ctx', p'⟩ := by
      unfold mbedtlsGcmCryptAndTag
      rw [if_neg (by simp [hkey]), if_neg (by omega), if_neg (by omega)]
      simp [hcrypt, htake, htagOk]
    refine ⟨_, hval, rfl, hout', ?_, hkey'.trans hkey, hctx'⟩
    rw [htagEq]
  · exact absurd hdone (hfail hpt)

theorem authDecrypt_spec (hdev : dev.ComputesAes) (hdone : dev.AlwaysDone) (h : ctx.Coherent key keybits)
    (hkey : ctx.haveKey = true) (iv ad ct out tag : List Byte) (p : Proc ω) (hct : ct.length ≤ gcmScratchSize)
    (htag : 1 ≤ tag.length ∧ tag.length ≤ 16) (hout : out.length = ct.length)
    (heq : tag = (Gcm.tag (aesEncrypt key keybits) iv ad ct).take tag.length) :
    ∃ r, mbedtlsGcmAuthDecrypt dev ctx iv ad tag ct out p = some r ∧ r.ret = .ok ∧
      r.output = Gcm.encrypt (aesEncrypt key keybits) iv ct := by
  obtain ⟨ret, out', ctx', p', hcrypt, -, -, hcases⟩ := gcmCryptInternal_spec hdev h iv ct out p
  obtain ⟨htagOk, htagEq⟩ := gcmComputeTag_eq h iv ad ct
  have hdiff : tagDiff (gcmComputeTag ctx iv ad ct).2.toList tag = 0#8 := by
    rw [htagEq]
    exact (tagDiff_eq_zero _ _ (by rw [Gcm.length_tag]; omega)).mpr heq
  rcases hcases with ⟨rfl, hout'⟩ | ⟨-, -, hfail⟩
  · rw [overlay, List.drop_eq_nil_of_le (by rw [Gcm.length_encrypt]; omega), List.append_nil] at hout'
    have hval : mbedtlsGcmAuthDecrypt dev ctx iv ad tag ct out p = some ⟨.ok, out', tag, ctx', p'⟩ := by
      unfold mbedtlsGcmAuthDecrypt
      rw [if_neg (by simp [hkey]), if_neg (by omega)]
      simp [hcrypt, htagOk, hdiff]
    exact ⟨_, hval, rfl, hout'⟩
  · exact absurd hdone (hfail hct)

/-- **The one-shot calls are Galois/Counter Mode.** Over the cipher of the context a
successful `mbedtls_gcm_setkey` left, a record is the standard's ciphertext with the
first bytes of its tag, and decrypting that with the same key, in the same context or
another, gives the record back. -/
theorem gcm_oneShot (hdev : dev.ComputesAes) (hdone : dev.AlwaysDone) (hctx : ctx.KeyedBy dev key keybits) :
    ∀ (iv ad pt out tag : List Byte) (p : Proc ω), 1 ≤ iv.length → pt.length ≤ gcmScratchSize →
      1 ≤ tag.length ∧ tag.length ≤ 16 → out.length = pt.length →
      let E := fun b => (mbedtlsAesCryptEcb ctx.aesSw .encrypt b).2
      ∃ r, mbedtlsGcmCryptAndTag dev ctx .encrypt iv ad pt out tag p = some r ∧ r.ret = .ok ∧
        r.output = Gcm.encrypt E iv pt ∧ r.tag = (Gcm.tag E iv ad r.output).take tag.length ∧
        ∀ (dctx : GcmContext) (out' : List Byte) (p' : Proc ω), dctx = r.ctx ∨ dctx.KeyedBy dev key keybits →
          out'.length = pt.length →
          ∃ d, mbedtlsGcmAuthDecrypt dev dctx iv ad r.tag r.output out' p' = some d ∧ d.ret = .ok ∧
            d.output = pt := by
  intro iv ad pt out tag p hiv hpt htag hout E
  obtain ⟨hkey, h⟩ := hctx.coherent
  have hE : E = aesEncrypt key keybits := by
    funext b
    simp only [E, h.aes.encrypt]
  obtain ⟨r, hr, hret, hro, hrt, hrkey, hrctx⟩ := cryptAndTag_spec hdev hdone h hkey iv ad pt out tag p hiv hpt htag hout
  refine ⟨r, hr, hret, by rw [hE, hro], by rw [hE, hrt], fun dctx out' p' hd hout' => ?_⟩
  obtain ⟨hdkey, hdctx⟩ : dctx.haveKey = true ∧ dctx.Coherent key keybits := by
    rcases hd with rfl | hd
    · exact ⟨hrkey, hrctx⟩
    · exact hd.coherent
  have hlen : r.output.length = pt.length := by rw [hro, Gcm.length_encrypt]
  have htlen : r.tag.length = tag.length := by
    rw [hrt, List.length_take, Gcm.length_tag]
    omega
  obtain ⟨d, hd, hdret, hdo⟩ := authDecrypt_spec hdev hdone hdctx hdkey iv ad r.output out' r.tag p'
    (by rw [hlen]; exact hpt) (by rw [htlen]; exact htag) (by rw [hout', hlen]) (by rw [htlen, hrt])
  refine ⟨d, hd, hdret, ?_⟩
  rw [hdo, hro, Gcm.encrypt_encrypt]

end Record

/-- A record of 600 bytes, long enough for the engine, under a 192-bit key and a
vector that has to be hashed. -/
theorem gcm_oneShot_softwareEngine :
    ∃ ctx : GcmContext, ctx.KeyedBy softwareEngine (fun i => BitVec.ofNat 8 i) 192 ∧
      ∃ r, mbedtlsGcmCryptAndTag softwareEngine ctx .encrypt (zeros 8) (zeros 13) (zeros 600) (zeros 600)
          (zeros 12) ⟨-1, ()⟩ = some r ∧ r.ret = .ok ∧
        ∃ d, mbedtlsGcmAuthDecrypt softwareEngine r.ctx (zeros 8) (zeros 13) r.tag r.output (zeros 600)
            r.proc = some d ∧ d.ret = .ok ∧ d.output = zeros 600 := by
  have hctx : (mbedtlsGcmSetkey softwareEngine mbedtlsGcmInit .aes (fun i => BitVec.ofNat 8 i) 192 ⟨-1, ()⟩).2.1.KeyedBy
      softwareEngine (fun i => BitVec.ofNat 8 i) 192 :=
    ⟨_, .aes, _, _, Prod.ext (gcmSetkey_ok (fun _ _ => rfl) mbedtlsGcmInit _ 192 (.inr (.inl rfl)) ⟨-1, ()⟩) rfl⟩
  obtain ⟨r, hr, hret, -, -, hd⟩ := gcm_oneShot softwareEngine_computes softwareEngine_done hctx (zeros 8) (zeros 13)
    (zeros 600) (zeros 600) (zeros 12) ⟨-1, ()⟩ (by decide) (by simp [gcmScratchSize]) (by decide) rfl
  exact ⟨_, hctx, r, hr, hret, hd r.ctx (zeros 600) r.proc (.inl rfl) rfl⟩

end Thingino.Crypto
