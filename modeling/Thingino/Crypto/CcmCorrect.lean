import Thingino.Crypto.CcmLayout
import Thingino.Crypto.GcmCorrect

/-! The one-shot calls of `ccm_alt.c` are counter mode with CBC-MAC.

The engine may refuse any of the operations a call needs: the buffer for the MAC's
output, the MAC request, the keystream request (`CcmRefused`). A call either ends
with the ciphertext and tag of the standard or reports the refusal; there is no
third outcome, and software records have only the first. -/
namespace Thingino.Crypto
open Lib

/-! ### CBC-MAC on both sides -/

theorem ecbBlock_eq {aes : AesContext} {key : Nat → Byte} {keybits : Nat} (h : aes.Keyed key keybits) (b : Block) :
    ecbBlock aes b = some (aesEncrypt key keybits b) := by
  rw [ecbBlock, h.encrypt]

/-- A buffer's blocks, read one after the other. -/
theorem blocks_of_holds {buf : Buf} {l : List Byte} (h : buf.Holds l) (hl : l.length % 16 = 0) :
    (List.range (l.length / 16)).map (fun k => Block.ofList (buf.read (16 * k) 16)) = toBlocks l := by
  rw [toBlocks, show (l.length + 15) / 16 = l.length / 16 by omega]
  apply List.map_congr_left
  intro k hk
  have hk' := List.mem_range.mp hk
  rw [h.read (16 * k) 16 (by omega), Block.ofList_take]

theorem swCbcMac_eq {aes : AesContext} {key : Nat → Byte} {keybits : Nat} (h : aes.Keyed key keybits) {input : Buf}
    {l : List Byte} (hin : input.Holds l) (hpos : 0 < l.length) (hl : l.length % 16 = 0) :
    swCbcMac aes input l.length = some (cbcMac (aesEncrypt key keybits) (toBlocks l)) := by
  rw [swCbcMac, if_neg (by omega), ← blocks_of_holds hin hl, cbcMac, List.foldl_map]
  simp only [ecbBlock_eq h]
  exact List.foldlM_pure

section Hardware
variable {ω : Type} {dev : Device ω}

theorem cbcMacRequest_carries {hwKey : Vector Word 8} {key : Nat → Byte} {keybits : Nat}
    (hk : keybits = 128 ∨ keybits = 192 ∨ keybits = 256) (h : HwKeyed hwKey key keybits) (src : List Byte) :
    (cbcMacRequest hwKey keybits src).Carries key keybits := by
  refine ⟨hk, .inl rfl, rfl, fun i hi hi' => ?_⟩
  simp only [cbcMacRequest, requestKey, Vector.getElem_ofFn, if_pos hi', Fin.getElem_fin]
  exact h i hi hi'

/-- The last block of a finished request. -/
theorem read_answer (E : Block → Block) (bs : List Block) (hne : bs ≠ []) (tmp : Buf) :
    Block.ofList ((tmp.write 0 (ofBlocks (cbcEncrypt E Block.zero bs))).read (16 * bs.length - 16) 16) = cbcMac E bs := by
  have hpos := List.length_pos_of_ne_nil hne
  have hlen : (ofBlocks (cbcEncrypt E Block.zero bs)).length = 16 * bs.length := by simp
  have hself : (tmp.write 0 (ofBlocks (cbcEncrypt E Block.zero bs))).Holds (ofBlocks (cbcEncrypt E Block.zero bs)) :=
    Buf.read_write_self tmp 0 _
  have hne' : cbcEncrypt E Block.zero bs ≠ [] := List.ne_nil_of_length_pos (by rw [length_cbcEncrypt]; exact hpos)
  have hlast := drop_ofBlocks_getLastD (cbcEncrypt E Block.zero bs) Block.zero hne'
  rw [length_cbcEncrypt] at hlast
  rw [hself.read _ _ (by rw [hlen]; omega), Block.ofList_take, hlast, Block.ofList_toList, cbcMac_eq_getLastD]

/-- The engine's MAC: the value, or a refusal by the allocator or the engine. -/
theorem hwCbcMac_cases (hdev : dev.ComputesAes) {hwKey : Vector Word 8} {key : Nat → Byte} {keybits : Nat}
    (hk : keybits = 128 ∨ keybits = 192 ∨ keybits = 256) (h : HwKeyed hwKey key keybits) {input : Buf}
    {l : List Byte} (hin : input.Holds l) (hpos : 0 < l.length) (hl : l.length % 16 = 0) (p : Proc ω) :
    (hwCbcMac dev hwKey keybits input l.length p).1 = some (cbcMac (aesEncrypt key keybits) (toBlocks l)) ∨
    (hwCbcMac dev hwKey keybits input l.length p).1 = none ∧
      ∃ w, (dev.malloc w l.length).1 = none ∨ ¬ done (dev.ioctl w (cbcMacRequest hwKey keybits l)).1 l.length := by
  have hsrc : input.read 0 l.length = l := hin
  unfold hwCbcMac
  rw [if_neg (by omega), hsrc]
  rcases hm : dev.malloc p.world l.length with ⟨_ | tmp, w⟩
  · exact .inr ⟨rfl, p.world, .inl (by rw [hm])⟩
  · dsimp only
    by_cases hd : done (dev.ioctl w (cbcMacRequest hwKey keybits l)).1 l.length
    · rw [if_pos hd]
      have hdata : (cbcMacRequest hwKey keybits l).datalen.toNat = l.length := by
        simp only [cbcMacRequest, BitVec.toNat_ofNat]
        apply Nat.mod_eq_of_lt
        rw [← hd.2]
        exact (dev.ioctl w (cbcMacRequest hwKey keybits l)).1.donelen.isLt
      have hmoved := hdev w (cbcMacRequest hwKey keybits l) key keybits Block.zero
        (cbcMacRequest_carries hk h l) (carriesIv_zero _ rfl) hl hdata hd
      have hne : toBlocks l ≠ [] := by
        apply List.ne_nil_of_length_pos
        rw [length_toBlocks]
        omega
      have hread := read_answer (aesEncrypt key keybits) (toBlocks l) hne tmp
      rw [length_toBlocks, show 16 * ((l.length + 15) / 16) = l.length by omega] at hread
      rw [hmoved]
      exact .inl (congrArg some hread)
    · rw [if_neg hd]
      exact .inr ⟨rfl, w, .inr hd⟩

end Hardware

/-! ### The two passes -/

/-- Everything in the context comes from one key. -/
structure CcmContext.Coherent (ctx : CcmContext) (key : Nat → Byte) (keybits : Nat) : Prop where
  aes : ctx.aesSw.Keyed key keybits
  hw : HwKeyed ctx.hwKey key keybits
  bits : ctx.keybits = keybits
  scratchMac : ctx.scratchMac.isSome
  scratchCtr : ctx.scratchCtr.isSome
  scratchKs : ctx.scratchKs.isSome

section Passes
variable {ω : Type} {dev : Device ω} {ctx : CcmContext} {key : Nat → Byte} {keybits : Nat}

/-- The MAC of this record was refused: no buffer for its output, or the request not done. -/
def MacRefused (dev : Device ω) (ctx : CcmContext) (l : List Byte) : Prop :=
  ∃ w, (dev.malloc w l.length).1 = none ∨
    ¬ done (dev.ioctl w (cbcMacRequest ctx.hwKey ctx.keybits l)).1 l.length

/-- The keystream of this record was refused. -/
def KeystreamRefused (dev : Device ω) (ctx : CcmContext) (iv : List Byte) (length : Nat) : Prop :=
  ∃ w, ¬ done (dev.ioctl w (ecbRequest ctx.hwKey ctx.keybits (ccmCounters iv length))).1 ((length + 15) / 16 * 16)

/-- An operation that this record needs was refused. -/
def CcmRefused (dev : Device ω) (ctx : CcmContext) (iv ad pt : List Byte) (tagLen : Nat) : Prop :=
  ccmHwMinSize ≤ pt.length ∧
    (MacRefused dev ctx (Ccm.macInput iv ad pt tagLen) ∨ KeystreamRefused dev ctx iv pt.length)

theorem ccmMacPass_spec (hdev : dev.ComputesAes) (h : ctx.Coherent key keybits) (hw : Bool) (iv ad pt : List Byte)
    (tagLen : Nat) (hiv : 7 ≤ iv.length ∧ iv.length ≤ 13) (htag : 4 ≤ tagLen ∧ tagLen ≤ 16)
    (had : ad.length < 0xff00) (mac : Buf) (p : Proc ω) :
    (ccmMacPass dev ctx hw iv ad pt tagLen mac p).1 =
        some (cbcMac (aesEncrypt key keybits) (toBlocks (Ccm.macInput iv ad pt tagLen))) ∨
      hw = true ∧ (ccmMacPass dev ctx hw iv ad pt tagLen mac p).1 = none ∧
        MacRefused dev ctx (Ccm.macInput iv ad pt tagLen) := by
  obtain ⟨hholds, hlen⟩ := buildMacInput_holds (mac.write 0 (zeros (macStaging ad.length pt.length))) iv ad pt tagLen
    hiv htag had
  have hl := length_macInput iv ad pt tagLen hiv.2
  simp only [round16] at hl
  unfold ccmMacPass
  dsimp only
  generalize buildMacInput (mac.write 0 (zeros (macStaging ad.length pt.length))) iv ad pt tagLen = r at hholds hlen ⊢
  rw [hlen]
  cases hw with
  | false => exact .inl (swCbcMac_eq h.aes hholds (by omega) (by omega))
  | true =>
    have hcases := hwCbcMac_cases hdev h.aes.size h.hw hholds (by omega) (by omega) p
    rw [← h.bits] at hcases
    rcases hcases with hok | ⟨hnone, hrefused⟩
    · exact .inl (by rw [← h.bits]; exact hok)
    · exact .inr ⟨rfl, hnone, hrefused⟩

theorem ccmCtrPass_spec (hdev : dev.ComputesAes) (h : ctx.Coherent key keybits) (hw : Bool)
    (iv input output : List Byte) (hiv : 7 ≤ iv.length ∧ iv.length ≤ 13) (ctr ks : Buf) (p : Proc ω) :
    (ccmCtrPass dev ctx hw iv input output ctr ks p).ok = true ∧
        (ccmCtrPass dev ctx hw iv input output ctr ks p).output =
          overlay (Ccm.encrypt (aesEncrypt key keybits) iv input) output ∨
      hw = true ∧ (ccmCtrPass dev ctx hw iv input output ctr ks p).ok = false ∧
        KeystreamRefused dev ctx iv input.length := by
  unfold ccmCtrPass
  dsimp only
  by_cases h0 : 0 < (input.length + 15) / 16
  · rw [if_pos h0]
    have hholds := ccmBuildCtrBlocks_holds ctr iv hiv ((input.length + 15) / 16)
    have hsrc := read_counters ctr iv hiv input.length
    generalize ccmBuildCtrBlocks ctr iv ((input.length + 15) / 16) = ctr' at hholds hsrc ⊢
    have hcs : ((List.range ((input.length + 15) / 16)).map fun i => Ccm.counter iv (i + 1)).length =
        (input.length + 15) / 16 := by simp
    have hread := ecbBulk_read hdev hw h.aes h.hw _ hholds ks p
    have hiff := ecbBulk_ok_iff dev hw ctx.hwKey ctx.keybits ctx.aesSw ctr' _ (Nat.ne_of_gt h0) ks p
    rw [hcs, ← h.bits, read_keystream] at hread
    rw [hsrc] at hiff
    generalize ecbBulk dev hw ctx.hwKey ctx.keybits ctx.aesSw ctr' ((input.length + 15) / 16) ks p = r at hread hiff ⊢
    by_cases hok : r.1 = .ok
    · rw [if_pos hok]
      refine .inl ⟨rfl, ?_⟩
      dsimp only
      rw [xorBytes_read _ _ input r.2.1 (hread hok), h.bits]
      rfl
    · rw [if_neg hok]
      rw [hiff] at hok
      simp only [Classical.not_imp] at hok
      exact .inr ⟨hok.1, rfl, _, hok.2⟩
  · rw [if_neg h0, List.length_eq_zero_iff.mp (show input.length = 0 by omega)]
    exact .inl ⟨rfl, rfl⟩

theorem ccmMask_eq (h : ctx.Coherent key keybits) (iv : List Byte) (m : Block) :
    ccmMask ctx iv m = some (Block.xor m (aesEncrypt key keybits (Ccm.counter iv 0))) := by
  rw [ccmMask, ecbBlock_eq h.aes, buildCtr0_eq]
  rfl

/-- The masked MAC, cut to length, is the tag. -/
theorem mask_take (iv ad pt : List Byte) (tagLen : Nat) :
    (Block.xor (cbcMac (aesEncrypt key keybits) (toBlocks (Ccm.macInput iv ad pt tagLen)))
      (aesEncrypt key keybits (Ccm.counter iv 0))).toList.take tagLen =
      Ccm.tag (aesEncrypt key keybits) iv ad pt tagLen := by
  rw [Block.toList_xor, Ccm.tag]

/-! ### Keys -/

/-- What a call of `mbedtls_ccm_setkey` can do: reject its arguments and change nothing,
fail to get scratch it did not have, or leave everything derived from its key. -/
theorem ccmSetkey_cases (dev : Device ω) (ctx : CcmContext) (cipher : CipherId) (key : Nat → Byte) (keybits : Nat) (p : Proc ω) :
    let r := mbedtlsCcmSetkey dev ctx cipher key keybits p
    r.1 = .ccmBadInput ∧ r.2.1 = ctx ∨
    r.1 = .hwAccelFailed ∧ r.2.1.haveKey = ctx.haveKey ∧
      (ctx.scratchMac = none ∨ ctx.scratchCtr = none ∨ ctx.scratchKs = none) ∨
    r.1 = .ok ∧ r.2.1.haveKey = true ∧ r.2.1.Coherent key keybits := by
  unfold mbedtlsCcmSetkey
  by_cases hc : cipher ≠ .aes
  · rw [if_pos hc]
    exact .inl ⟨rfl, rfl⟩
  · rw [if_neg hc]
    cases hn : keybitsToNwords keybits with
    | none => exact .inl ⟨rfl, rfl⟩
    | some nwords =>
      obtain ⟨hk, rfl⟩ := keybitsToNwords_some hn
      obtain ⟨hret, hkeyed⟩ := setkeyEnc_ok ctx.aesSw key keybits hk
      obtain ⟨aes, haes⟩ : ∃ aes, mbedtlsAesSetkeyEnc ctx.aesSw key keybits = (.ok, aes) := ⟨_, Prod.ext hret rfl⟩
      rw [haes] at hkeyed
      simp only [haes]
      generalize hm₁ : mallocUnless dev ctx.scratchMac ccmScratchSize p = m₁
      generalize hm₂ : mallocUnless dev ctx.scratchCtr ccmScratchSize m₁.2 = m₂
      generalize hm₃ : mallocUnless dev ctx.scratchKs ccmScratchSize m₂.2 = m₃
      by_cases hnull : m₁.1.isNone ∨ m₂.1.isNone ∨ m₃.1.isNone
      · rw [if_pos hnull]
        refine .inr (.inl ⟨rfl, rfl, ?_⟩)
        rcases hnull with h | h | h
        · exact .inl (mallocUnless_none (hm₁ ▸ h))
        · exact .inr (.inl (mallocUnless_none (hm₂ ▸ h)))
        · exact .inr (.inr (mallocUnless_none (hm₃ ▸ h)))
      · rw [if_neg hnull]
        simp only [not_or, Bool.not_eq_true, Option.isNone_eq_false_iff] at hnull
        exact .inr (.inr ⟨rfl, rfl, hkeyed, hwKeyed_packKey key keybits ctx.hwKey, rfl, hnull.1, hnull.2.1, hnull.2.2⟩)

theorem ccmSetkey_ok (hm : ∀ w n, (dev.malloc w n).1.isSome) (ctx : CcmContext) (key : Nat → Byte) (keybits : Nat)
    (hk : keybits = 128 ∨ keybits = 192 ∨ keybits = 256) (p : Proc ω) :
    (mbedtlsCcmSetkey dev ctx .aes key keybits p).1 = .ok := by
  have hn : keybitsToNwords keybits = some (keybits / 32) := by
    rcases hk with rfl | rfl | rfl <;> rfl
  obtain ⟨aes, haes⟩ : ∃ aes, mbedtlsAesSetkeyEnc ctx.aesSw key keybits = (.ok, aes) :=
    ⟨_, Prod.ext (setkeyEnc_ok ctx.aesSw key keybits hk).1 rfl⟩
  simp [mbedtlsCcmSetkey, hn, haes, mallocUnless_isSome hm]

/-- Some successful call of `mbedtls_ccm_setkey` with this key left the context. -/
def CcmContext.KeyedBy (dev : Device ω) (ctx : CcmContext) (key : Nat → Byte) (keybits : Nat) : Prop :=
  ∃ ctx₀ cipher p₀ p, mbedtlsCcmSetkey dev ctx₀ cipher key keybits p₀ = (.ok, ctx, p)

theorem CcmContext.KeyedBy.coherent (h : ctx.KeyedBy dev key keybits) :
    ctx.haveKey = true ∧ ctx.Coherent key keybits := by
  obtain ⟨ctx₀, cipher, p₀, p, h⟩ := h
  have hcases := ccmSetkey_cases dev ctx₀ cipher key keybits p₀
  rw [h] at hcases
  rcases hcases with ⟨h, -⟩ | ⟨h, -⟩ | ⟨-, h⟩
  · cases h
  · cases h
  · exact h

theorem CcmContext.Coherent.scratch (h : ctx.Coherent key keybits) (mac ctr ks : Buf) :
    (ctx.withScratch mac ctr ks).Coherent key keybits := ⟨h.aes, h.hw, h.bits, rfl, rfl, rfl⟩

/-! ### The one-shot calls -/

theorem useHw_min (fdGet : Proc ω → Int × Proc ω) (minSize length : Nat) (p : Proc ω)
    (h : (useHw fdGet minSize length p).1 = true) : minSize ≤ length := by
  unfold useHw at h
  split at h
  · assumption
  · cases h

theorem overlay_encrypt (E : Block → Block) (iv input output : List Byte) (h : output.length = input.length) :
    overlay (Ccm.encrypt E iv input) output = Ccm.encrypt E iv input := by
  rw [overlay, List.drop_eq_nil_of_le (by rw [Ccm.length_encrypt]; omega), List.append_nil]

/-- Encryption ends with the standard's bytes or reports what was refused. -/
theorem encryptAndTag_spec (hdev : dev.ComputesAes) (h : ctx.Coherent key keybits)
    (iv ad pt out tag : List Byte) (p : Proc ω) (hadm : ctx.admits iv.length ad.length pt.length tag.length)
    (hout : out.length = pt.length) :
    ∃ r, mbedtlsCcmEncryptAndTag dev ctx iv ad pt out tag p = some r ∧ r.ctx.haveKey = true ∧
      r.ctx.Coherent key keybits ∧
      (r.ret = .ok ∧ r.output = Ccm.encrypt (aesEncrypt key keybits) iv pt ∧
          r.tag = Ccm.tag (aesEncrypt key keybits) iv ad pt tag.length ∨
        r.ret = .hwAccelFailed ∧ CcmRefused dev ctx iv ad pt tag.length) := by
  obtain ⟨mac, hmac⟩ := Option.isSome_iff_exists.mp h.scratchMac
  obtain ⟨ctr, hctr⟩ := Option.isSome_iff_exists.mp h.scratchCtr
  obtain ⟨ks, hks⟩ := Option.isSome_iff_exists.mp h.scratchKs
  have hadm' := hadm
  obtain ⟨hkey, hiv, ⟨ht1, ht2, -⟩, had, -⟩ := hadm'
  unfold mbedtlsCcmEncryptAndTag
  rw [if_neg (not_not_intro hadm), hmac, hctr, hks]
  have hmin := useHw_min (ccmHwFdGet dev) ccmHwMinSize pt.length p
  generalize useHw (ccmHwFdGet dev) ccmHwMinSize pt.length p = choice at hmin ⊢
  obtain ⟨hw, q⟩ := choice
  dsimp only at hmin ⊢
  have hmacPass := ccmMacPass_spec hdev h hw iv ad pt tag.length hiv ⟨ht1, ht2⟩ had mac q
  generalize ccmMacPass dev ctx hw iv ad pt tag.length mac q = m at hmacPass ⊢
  obtain ⟨m, mac', q'⟩ := m
  dsimp only at hmacPass ⊢
  rcases hmacPass with rfl | ⟨hhw, rfl, hrefused⟩
  · have hctrPass := ccmCtrPass_spec hdev h hw iv pt out hiv ctr ks q'
    generalize ccmCtrPass dev ctx hw iv pt out ctr ks q' = c at hctrPass ⊢
    rcases hctrPass with ⟨hok, hco⟩ | ⟨hhw, hok, hrefused⟩
    · simp only [hok, if_true, ccmMask_eq h]
      refine ⟨_, rfl, hkey, h.scratch mac' c.ctr c.ks, .inl ⟨rfl, ?_, ?_⟩⟩
      · rw [hco, overlay_encrypt _ _ _ _ hout]
      · rw [mask_take]
    · simp only [hok, Bool.false_eq_true, if_false]
      exact ⟨_, rfl, hkey, h.scratch mac' c.ctr c.ks, .inr ⟨rfl, hmin hhw, .inr hrefused⟩⟩
  · exact ⟨_, rfl, hkey, h.scratch mac' ctr ks, .inr ⟨rfl, hmin hhw, .inl hrefused⟩⟩

/-- Decryption accepts the right tag, rejects every other one, or reports what was refused. -/
theorem ccmAuthDecrypt_spec (hdev : dev.ComputesAes) (h : ctx.Coherent key keybits)
    (iv ad ct out tag : List Byte) (p : Proc ω) (hadm : ctx.admits iv.length ad.length ct.length tag.length)
    (hout : out.length = ct.length) :
    let pt := Ccm.encrypt (aesEncrypt key keybits) iv ct
    ∃ r, mbedtlsCcmAuthDecrypt dev ctx iv ad ct out tag p = some r ∧
      (r.ret = .ok ∧ tag = Ccm.tag (aesEncrypt key keybits) iv ad pt tag.length ∧ r.output = pt ∨
        r.ret = .ccmAuthFailed ∧ tag ≠ Ccm.tag (aesEncrypt key keybits) iv ad pt tag.length ∨
        r.ret = .hwAccelFailed ∧ CcmRefused dev ctx iv ad pt tag.length) := by
  intro pt
  obtain ⟨mac, hmac⟩ := Option.isSome_iff_exists.mp h.scratchMac
  obtain ⟨ctr, hctr⟩ := Option.isSome_iff_exists.mp h.scratchCtr
  obtain ⟨ks, hks⟩ := Option.isSome_iff_exists.mp h.scratchKs
  have hadm' := hadm
  obtain ⟨-, hiv, ⟨ht1, ht2, -⟩, had, -⟩ := hadm'
  have hpt : pt.length = ct.length := Ccm.length_encrypt ..
  unfold mbedtlsCcmAuthDecrypt
  rw [if_neg (not_not_intro hadm), hmac, hctr, hks]
  have hmin := useHw_min (ccmHwFdGet dev) ccmHwMinSize ct.length p
  generalize useHw (ccmHwFdGet dev) ccmHwMinSize ct.length p = choice at hmin ⊢
  obtain ⟨hw, q⟩ := choice
  dsimp only at hmin ⊢
  have hctrPass := ccmCtrPass_spec hdev h hw iv ct out hiv ctr ks q
  generalize ccmCtrPass dev ctx hw iv ct out ctr ks q = c at hctrPass ⊢
  rcases hctrPass with ⟨hok, hco⟩ | ⟨hhw, hok, hrefused⟩
  · rw [overlay_encrypt _ _ _ _ hout] at hco
    have htake : c.output.take ct.length = pt := by
      rw [hco]
      exact List.take_of_length_le (by rw [Ccm.length_encrypt])
    rw [if_pos hok, htake]
    have hmacPass := ccmMacPass_spec hdev h hw iv ad pt tag.length hiv ⟨ht1, ht2⟩ had mac c.proc
    generalize ccmMacPass dev ctx hw iv ad pt tag.length mac c.proc = m at hmacPass ⊢
    obtain ⟨m, mac', q'⟩ := m
    dsimp only at hmacPass ⊢
    rcases hmacPass with rfl | ⟨hhw, rfl, hrefused⟩
    · simp only [ccmMask_eq h, mask_take]
      have hlen : (Ccm.tag (aesEncrypt key keybits) iv ad pt tag.length).length = tag.length :=
        Ccm.length_tag _ _ _ _ _ ht2
      have hdiff := tagDiff_eq_zero (Ccm.tag (aesEncrypt key keybits) iv ad pt tag.length) tag (by omega)
      rw [List.take_of_length_le (by omega)] at hdiff
      by_cases h0 : tagDiff (Ccm.tag (aesEncrypt key keybits) iv ad pt tag.length) tag = 0#8
      · rw [if_neg (not_not_intro h0)]
        exact ⟨_, rfl, .inl ⟨rfl, hdiff.mp h0, hco⟩⟩
      · rw [if_pos h0]
        exact ⟨_, rfl, .inr (.inl ⟨rfl, fun heq => h0 (hdiff.mpr heq)⟩)⟩
    · exact ⟨_, rfl, .inr (.inr ⟨rfl, by rw [hpt]; exact hmin hhw, .inl hrefused⟩)⟩
  · rw [if_neg (by simp [hok])]
    exact ⟨_, rfl, .inr (.inr ⟨rfl, by rw [hpt]; exact hmin hhw, .inr (by rw [hpt]; exact hrefused)⟩)⟩

/-- **The one-shot calls are counter mode with CBC-MAC.** Over the cipher of the context
a successful `mbedtls_ccm_setkey` left, a record is the standard's ciphertext and tag;
with the same key, in the same context or another, its tag is accepted and gives the
record back, and every other tag is turned away. The only other outcome is a refusal by
the device. The length of an admitted record always fits the field it is written to. -/
theorem ccm_oneShot (hdev : dev.ComputesAes) (hctx : ctx.KeyedBy dev key keybits) :
    ∀ (iv ad pt out tag : List Byte) (p : Proc ω), 7 ≤ iv.length ∧ iv.length ≤ 13 →
      4 ≤ tag.length ∧ tag.length ≤ 16 ∧ tag.length % 2 = 0 → ad.length < 0xff00 →
      pt.length ≤ ccmScratchSize → out.length = pt.length →
      let E := fun b => (mbedtlsAesCryptEcb ctx.aesSw .encrypt b).2
      pt.length < 2 ^ (8 * (15 - iv.length)) ∧
      ∃ r, mbedtlsCcmEncryptAndTag dev ctx iv ad pt out tag p = some r ∧
        (r.ret = .ok ∧ r.output = Ccm.encrypt E iv pt ∧ r.tag = Ccm.tag E iv ad pt tag.length ∨
          r.ret = .hwAccelFailed ∧ CcmRefused dev ctx iv ad pt tag.length) ∧
        ∀ (dctx : CcmContext) (tag' out' : List Byte) (p' : Proc ω),
          dctx = r.ctx ∨ dctx.KeyedBy dev key keybits → tag'.length = tag.length → out'.length = pt.length →
          ∃ d, mbedtlsCcmAuthDecrypt dev dctx iv ad (Ccm.encrypt E iv pt) out' tag' p' = some d ∧
            (d.ret = .ok ∧ tag' = Ccm.tag E iv ad pt tag.length ∧ d.output = pt ∨
              d.ret = .ccmAuthFailed ∧ tag' ≠ Ccm.tag E iv ad pt tag.length ∨
              d.ret = .hwAccelFailed ∧ CcmRefused dev dctx iv ad pt tag.length) := by
  intro iv ad pt out tag p hiv htag had hpt hout E
  obtain ⟨hkey, h⟩ := hctx.coherent
  have hE : E = aesEncrypt key keybits := by
    funext b
    simp only [E, h.aes.encrypt]
  have hfits : pt.length < 2 ^ (8 * (15 - iv.length)) := calc
    pt.length < 2 ^ 16 := by
      simp only [ccmScratchSize] at hpt
      omega
    _ ≤ 2 ^ (8 * (15 - iv.length)) := Nat.pow_le_pow_right (by decide) (by omega)
  obtain ⟨r, hr, hrkey, hrctx, hcases⟩ := encryptAndTag_spec hdev h iv ad pt out tag p ⟨hkey, hiv, htag, had, hpt⟩ hout
  refine ⟨hfits, r, hr, by rwa [hE], fun dctx tag' out' p' hd htag' hout' => ?_⟩
  obtain ⟨hdkey, hdctx⟩ : dctx.haveKey = true ∧ dctx.Coherent key keybits := by
    rcases hd with rfl | hd
    · exact ⟨hrkey, hrctx⟩
    · exact hd.coherent
  have hlen : (Ccm.encrypt (aesEncrypt key keybits) iv pt).length = pt.length := Ccm.length_encrypt ..
  have hspec := ccmAuthDecrypt_spec hdev hdctx iv ad (Ccm.encrypt (aesEncrypt key keybits) iv pt) out' tag' p'
    ⟨hdkey, hiv, by rw [htag']; exact htag, had, by rw [hlen]; exact hpt⟩ (by rw [hout', hlen])
  rw [hE]
  rwa [Ccm.encrypt_encrypt, htag'] at hspec

end Passes

/-- The software engine refuses nothing. -/
theorem not_ccmRefused_softwareEngine (ctx : CcmContext) (iv ad pt : List Byte) (tagLen : Nat)
    (hmac : (Ccm.macInput iv ad pt tagLen).length < 2 ^ 32) (hpt : pt.length < 2 ^ 31) :
    ¬ CcmRefused softwareEngine ctx iv ad pt tagLen := by
  rintro ⟨-, ⟨w, h | h⟩ | ⟨w, h⟩⟩
  · cases h
  · exact h ⟨Int.le_refl 0, Nat.mod_eq_of_lt hmac⟩
  · refine h ⟨Int.le_refl 0, ?_⟩
    simp only [softwareEngine, ecbRequest, ccmCounters, BitVec.toNat_ofNat, length_ofBlocks, List.length_map,
      List.length_range]
    omega

/-- A record of 600 bytes, long enough for the engine, under a 256-bit key. -/
theorem ccm_oneShot_softwareEngine :
    ∃ ctx : CcmContext, ctx.KeyedBy softwareEngine (fun i => BitVec.ofNat 8 i) 256 ∧
      ∃ r, mbedtlsCcmEncryptAndTag softwareEngine ctx (zeros 12) (zeros 13) (zeros 600) (zeros 600)
          (zeros 8) ⟨-1, ()⟩ = some r ∧ r.ret = .ok := by
  have hctx : (mbedtlsCcmSetkey softwareEngine mbedtlsCcmInit .aes (fun i => BitVec.ofNat 8 i) 256 ⟨-1, ()⟩).2.1.KeyedBy
      softwareEngine (fun i => BitVec.ofNat 8 i) 256 :=
    ⟨_, .aes, _, _, Prod.ext (ccmSetkey_ok (fun _ _ => rfl) mbedtlsCcmInit _ 256 (.inr (.inr rfl)) ⟨-1, ()⟩) rfl⟩
  obtain ⟨-, r, hr, hcases, -⟩ := ccm_oneShot softwareEngine_computes hctx (zeros 12) (zeros 13) (zeros 600) (zeros 600)
    (zeros 8) ⟨-1, ()⟩ (by decide) (by decide) (by decide) (by simp [ccmScratchSize]) rfl
  have hmac := length_macInput (zeros 12) (zeros 13) (zeros 600) (zeros 8).length (by decide)
  refine ⟨_, hctx, r, hr, ?_⟩
  rcases hcases with ⟨hok, -⟩ | ⟨-, hrefused⟩
  · exact hok
  · refine absurd hrefused (not_ccmRefused_softwareEngine _ _ _ _ _ ?_ (by simp))
    rw [hmac, length_zeros 600, show (Ccm.adLength (zeros 13).length ++ zeros 13).length = 15 from rfl]
    decide

end Thingino.Crypto
