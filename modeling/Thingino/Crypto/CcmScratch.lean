import Thingino.Crypto.CcmCorrect

/-! Where the one-shot calls of `ccm_alt.c` write in their scratch buffers.

The guard compares `length` with the size of a buffer. That is enough for the two
buffers of the counter pass, which take `length` rounded up to a block
(`ccmCtrPass_inBounds`). The staging area of the MAC takes 32 bytes and the rounded
associated data on top, and the `memset` that clears it goes over the end exactly
when the sum does (`ccmMacPass_inBounds`). -/
namespace Thingino.Crypto
open Lib

/-! ### Logs only grow -/

section Logs
variable {r : Nat × Nat}

theorem mem_touched_padTo16 {buf : Buf} {off : Nat} (h : r ∈ buf.touched) : r ∈ (padTo16 buf off).1.touched := by
  fun_induction padTo16 buf off with
  | case1 => exact h
  | case2 buf off h0 ih => exact ih (List.mem_cons_of_mem _ h)

theorem mem_touched_putBe {buf : Buf} {off q x : Nat} (h : r ∈ buf.touched) : r ∈ (putBe buf off q x).touched :=
  List.foldlRecOn (motive := fun b : Buf => r ∈ b.touched) _ _ h fun _ h _ _ => List.mem_cons_of_mem _ h

theorem mem_touched_putAd {buf : Buf} (off : Nat) (ad : List Byte) (h : r ∈ buf.touched) :
    r ∈ (putAd buf off ad).1.touched := by
  unfold putAd
  dsimp only
  split
  · refine mem_touched_padTo16 (List.mem_cons_of_mem _ ?_)
    split
    · exact List.mem_cons_of_mem _ (List.mem_cons_of_mem _ h)
    · exact List.mem_append_right [_, _, _, _, _, _] h
  · exact h

theorem mem_touched_buildMacInput {buf : Buf} {iv ad pt : List Byte} {tagLen : Nat} (h : r ∈ buf.touched) :
    r ∈ (buildMacInput buf iv ad pt tagLen).1.touched := by
  have hb0 : r ∈ (putBe ((buf.write 0 [b0Flags iv.length ad.length tagLen]).write 1 iv) (1 + iv.length)
      (15 - iv.length) pt.length).touched :=
    mem_touched_putBe (List.mem_cons_of_mem _ (List.mem_cons_of_mem _ h))
  have had := mem_touched_putAd (1 + iv.length + (15 - iv.length)) ad hb0
  unfold buildMacInput
  dsimp only
  split
  · exact mem_touched_padTo16 (List.mem_cons_of_mem _ had)
  · exact had

end Logs

/-! ### The two passes -/

section Passes
variable {ω : Type} {dev : Device ω} {ctx : CcmContext}

theorem macStaging_pos (adLen length : Nat) : 0 < macStaging adLen length := by
  simp only [macStaging]
  omega

/-- The staging area fits exactly when its three parts do. -/
theorem ccmMacPass_inBounds (dev : Device ω) (ctx : CcmContext) (hw : Bool) (iv ad pt : List Byte) (tagLen : Nat) (hiv : iv.length ≤ 13)
    (had : ad.length < 0xff00) (mac : Buf) (hmac : mac.InBounds ccmScratchSize) (p : Proc ω) :
    (ccmMacPass dev ctx hw iv ad pt tagLen mac p).2.1.InBounds ccmScratchSize ↔
      macStaging ad.length pt.length ≤ ccmScratchSize := by
  have hbuf : (ccmMacPass dev ctx hw iv ad pt tagLen mac p).2.1 =
      (buildMacInput (mac.write 0 (zeros (macStaging ad.length pt.length))) iv ad pt tagLen).1 := by
    cases hw <;> rfl
  rw [hbuf]
  constructor
  · intro h
    have hset := ((Buf.inBounds_write _ _ _ _).mp (h.of_log fun _ => mem_touched_buildMacInput)).1
      (List.ne_nil_of_length_pos (by rw [length_zeros]; exact macStaging_pos ..))
    rwa [length_zeros, Nat.zero_add] at hset
  · intro hle
    exact buildMacInput_inBounds (hmac.write _ _ (by rw [length_zeros, Nat.zero_add]; exact hle)) iv ad pt tagLen
      hiv had hle

/-- The counter blocks and the keystream always fit. -/
theorem ccmCtrPass_inBounds (dev : Device ω) (ctx : CcmContext) (hw : Bool) (iv input output : List Byte) (hiv : 7 ≤ iv.length ∧ iv.length ≤ 13)
    (hlen : input.length ≤ ccmScratchSize) (ctr ks : Buf) (hctr : ctr.InBounds ccmScratchSize)
    (hks : ks.InBounds ccmScratchSize) (p : Proc ω) :
    (ccmCtrPass dev ctx hw iv input output ctr ks p).ctr.InBounds ccmScratchSize ∧
      (ccmCtrPass dev ctx hw iv input output ctr ks p).ks.InBounds ccmScratchSize := by
  have hn : (input.length + 15) / 16 * 16 ≤ ccmScratchSize := by
    simp only [ccmScratchSize] at hlen ⊢
    omega
  have hc := ccmBuildCtrBlocks_inBounds hctr iv hiv ((input.length + 15) / 16) hn
  have hk := ecbBulk_inBounds dev hw ctx.hwKey ctx.keybits ctx.aesSw
    (ccmBuildCtrBlocks ctr iv ((input.length + 15) / 16)) ks _ _ hn p hks
  unfold ccmCtrPass
  dsimp only
  split
  · split
    · exact ⟨hc, hk⟩
    · exact ⟨hc, hk⟩
  · exact ⟨hctr, hks⟩

/-! ### The calls -/

/-- The context has its scratch, and every byte written to it so far is inside. -/
structure CcmContext.ScratchOk (ctx : CcmContext) : Prop where
  mac : ∃ b, ctx.scratchMac = some b ∧ b.InBounds ccmScratchSize
  ctr : ∃ b, ctx.scratchCtr = some b ∧ b.InBounds ccmScratchSize
  ks : ∃ b, ctx.scratchKs = some b ∧ b.InBounds ccmScratchSize

theorem scratchOk_withScratch (mac ctr ks : Buf) :
    (ctx.withScratch mac ctr ks).ScratchOk ↔
      mac.InBounds ccmScratchSize ∧ ctr.InBounds ccmScratchSize ∧ ks.InBounds ccmScratchSize := by
  constructor
  · rintro ⟨⟨b, hb, h1⟩, ⟨c, hc, h2⟩, ⟨k, hk, h3⟩⟩
    cases hb
    cases hc
    cases hk
    exact ⟨h1, h2, h3⟩
  · rintro ⟨h1, h2, h3⟩
    exact ⟨⟨_, rfl, h1⟩, ⟨_, rfl, h2⟩, ⟨_, rfl, h3⟩⟩

/-- The engine is asked for the keystream of this record, from here, and does not finish it. -/
def KeystreamFails (dev : Device ω) (ctx : CcmContext) (iv : List Byte) (length : Nat) (p : Proc ω) : Prop :=
  let choice := useHw (ccmHwFdGet dev) ccmHwMinSize length p
  choice.1 = true ∧ ¬ done (dev.ioctl choice.2.world (ecbRequest ctx.hwKey ctx.keybits (ccmCounters iv length))).1
    ((length + 15) / 16 * 16)

theorem length_ccmCtrPass (dev : Device ω) (ctx : CcmContext) (hw : Bool) (iv input output : List Byte)
    (hout : output.length = input.length) (ctr ks : Buf) (p : Proc ω) :
    (ccmCtrPass dev ctx hw iv input output ctr ks p).output.length = input.length := by
  unfold ccmCtrPass
  dsimp only
  split
  · split
    · rw [overlay, List.length_append, List.length_drop, length_xorBytes, Buf.length_read]
      omega
    · exact hout
  · exact hout

/-- When the counter pass fails. -/
theorem ccmCtrPass_ok_iff (dev : Device ω) (ctx : CcmContext) (hw : Bool) (iv input output : List Byte) (hiv : 7 ≤ iv.length ∧ iv.length ≤ 13)
    (hhw : hw = true → ccmHwMinSize ≤ input.length) (ctr ks : Buf) (p : Proc ω) :
    (ccmCtrPass dev ctx hw iv input output ctr ks p).ok = true ↔
      ¬ (hw = true ∧ ¬ done (dev.ioctl p.world (ecbRequest ctx.hwKey ctx.keybits (ccmCounters iv input.length))).1
        ((input.length + 15) / 16 * 16)) := by
  unfold ccmCtrPass
  dsimp only
  by_cases h0 : 0 < (input.length + 15) / 16
  · have hiff := ecbBulk_ok_iff dev hw ctx.hwKey ctx.keybits ctx.aesSw
      (ccmBuildCtrBlocks ctr iv ((input.length + 15) / 16)) _ (Nat.ne_of_gt h0) ks p
    rw [read_counters ctr iv hiv] at hiff
    rw [if_pos h0, not_and_not_right, ← hiff]
    split
    · simp_all
    · simp_all
  · rw [if_neg h0]
    refine iff_of_true rfl fun h => ?_
    have := hhw h.1
    simp only [ccmHwMinSize] at this
    omega

theorem encryptAndTag_scratch (dev : Device ω) (h : ctx.ScratchOk) (iv ad pt out tag : List Byte) (p : Proc ω)
    (hadm : ctx.admits iv.length ad.length pt.length tag.length) :
    ∃ r, mbedtlsCcmEncryptAndTag dev ctx iv ad pt out tag p = some r ∧
      (r.ctx.ScratchOk ↔ macStaging ad.length pt.length ≤ ccmScratchSize) := by
  obtain ⟨⟨mac, hmac, hm⟩, ⟨ctr, hctr, hc⟩, ⟨ks, hks, hk⟩⟩ := h
  have hadm' := hadm
  obtain ⟨-, hiv, -, had, hlen⟩ := hadm'
  unfold mbedtlsCcmEncryptAndTag
  rw [if_neg (not_not_intro hadm), hmac, hctr, hks]
  generalize useHw (ccmHwFdGet dev) ccmHwMinSize pt.length p = choice
  obtain ⟨hw, q⟩ := choice
  dsimp only
  have hmacPass := ccmMacPass_inBounds dev ctx hw iv ad pt tag.length hiv.2 had mac hm q
  generalize ccmMacPass dev ctx hw iv ad pt tag.length mac q = m at hmacPass ⊢
  obtain ⟨_ | m, mac', q'⟩ := m
  · refine ⟨_, rfl, ?_⟩
    rw [scratchOk_withScratch, ← hmacPass]
    exact ⟨fun h => h.1, fun h => ⟨h, hc, hk⟩⟩
  · have hctrPass := ccmCtrPass_inBounds dev ctx hw iv pt out hiv hlen ctr ks hc hk q'
    dsimp only at hmacPass ⊢
    generalize ccmCtrPass dev ctx hw iv pt out ctr ks q' = c at hctrPass ⊢
    have hiff : (ctx.withScratch mac' c.ctr c.ks).ScratchOk ↔ macStaging ad.length pt.length ≤ ccmScratchSize := by
      rw [scratchOk_withScratch, ← hmacPass]
      exact ⟨fun h => h.1, fun h => ⟨h, hctrPass⟩⟩
    split
    · cases ccmMask ctx iv m with
      | none => exact ⟨_, rfl, hiff⟩
      | some t => exact ⟨_, rfl, hiff⟩
    · exact ⟨_, rfl, hiff⟩

theorem authDecrypt_scratch (dev : Device ω) (h : ctx.ScratchOk) (iv ad ct out tag : List Byte) (p : Proc ω)
    (hadm : ctx.admits iv.length ad.length ct.length tag.length) (hout : out.length = ct.length) :
    ∃ r, mbedtlsCcmAuthDecrypt dev ctx iv ad ct out tag p = some r ∧
      (r.ctx.ScratchOk ↔
        macStaging ad.length ct.length ≤ ccmScratchSize ∨ KeystreamFails dev ctx iv ct.length p) := by
  obtain ⟨⟨mac, hmac, hm⟩, ⟨ctr, hctr, hc⟩, ⟨ks, hks, hk⟩⟩ := h
  have hadm' := hadm
  obtain ⟨-, hiv, -, had, hlen⟩ := hadm'
  have hmin := useHw_min (ccmHwFdGet dev) ccmHwMinSize ct.length p
  unfold mbedtlsCcmAuthDecrypt KeystreamFails
  rw [if_neg (not_not_intro hadm), hmac, hctr, hks]
  generalize useHw (ccmHwFdGet dev) ccmHwMinSize ct.length p = choice at hmin ⊢
  obtain ⟨hw, q⟩ := choice
  dsimp only at hmin ⊢
  have hok := ccmCtrPass_ok_iff dev ctx hw iv ct out hiv hmin ctr ks q
  have hctrPass := ccmCtrPass_inBounds dev ctx hw iv ct out hiv hlen ctr ks hc hk q
  have houtLen := length_ccmCtrPass dev ctx hw iv ct out hout ctr ks q
  generalize ccmCtrPass dev ctx hw iv ct out ctr ks q = c at hok hctrPass houtLen ⊢
  by_cases hcok : c.ok = true
  · rw [if_pos hcok]
    have htake : (c.output.take ct.length).length = ct.length := by
      rw [List.length_take, houtLen]
      omega
    have hmacPass := ccmMacPass_inBounds dev ctx hw iv ad (c.output.take ct.length) tag.length hiv.2 had mac hm c.proc
    rw [htake] at hmacPass
    generalize ccmMacPass dev ctx hw iv ad (c.output.take ct.length) tag.length mac c.proc = m at hmacPass ⊢
    have hiff : (ctx.withScratch m.2.1 c.ctr c.ks).ScratchOk ↔ macStaging ad.length ct.length ≤ ccmScratchSize ∨
        (hw = true ∧ ¬ done (dev.ioctl q.world (ecbRequest ctx.hwKey ctx.keybits (ccmCounters iv ct.length))).1
          ((ct.length + 15) / 16 * 16)) := by
      rw [scratchOk_withScratch, ← hmacPass, or_iff_left (hok.mp hcok)]
      exact ⟨fun h => h.1, fun h => ⟨h, hctrPass⟩⟩
    obtain ⟨_ | m, mac', q'⟩ := m
    · exact ⟨_, rfl, hiff⟩
    · dsimp only
      cases ccmMask ctx iv m with
      | none => exact ⟨_, rfl, hiff⟩
      | some t =>
        dsimp only
        split
        · exact ⟨_, rfl, hiff⟩
        · exact ⟨_, rfl, hiff⟩
  · rw [if_neg hcok]
    refine ⟨_, rfl, ?_⟩
    rw [hok, not_not] at hcok
    exact iff_of_true ((scratchOk_withScratch _ _ _).mpr ⟨hm, hctrPass⟩) (.inr hcok)

/-- **When the scratch is enough.** An admitted encryption stays inside its buffers
exactly when 32 bytes, the rounded associated data with its length and the rounded
record fit together; an admitted decryption does then, or when the engine did not
finish the keystream, so that the MAC is never laid out. -/
theorem ccm_scratch_bounds (dev : Device ω) (hctx : ctx.ScratchOk) :
    ∀ (iv ad input out tag : List Byte) (p : Proc ω),
      ctx.admits iv.length ad.length input.length tag.length → out.length = input.length →
      (∃ r, mbedtlsCcmEncryptAndTag dev ctx iv ad input out tag p = some r ∧
        (r.ctx.ScratchOk ↔ macStaging ad.length input.length ≤ ccmScratchSize)) ∧
      (∃ r, mbedtlsCcmAuthDecrypt dev ctx iv ad input out tag p = some r ∧
        (r.ctx.ScratchOk ↔
          macStaging ad.length input.length ≤ ccmScratchSize ∨ KeystreamFails dev ctx iv input.length p)) :=
  fun iv ad input out tag p hadm hout =>
    ⟨encryptAndTag_scratch dev hctx iv ad input out tag p hadm,
      authDecrypt_scratch dev hctx iv ad input out tag p hadm hout⟩

end Passes

/-- A fresh context with a key, on a device that answers everything. -/
theorem softwareEngine_scratchOk (key : Nat → Byte) :
    (mbedtlsCcmSetkey softwareEngine mbedtlsCcmInit .aes key 128 ⟨-1, ()⟩).2.1.ScratchOk ∧
      (mbedtlsCcmSetkey softwareEngine mbedtlsCcmInit .aes key 128 ⟨-1, ()⟩).2.1.haveKey = true := by
  obtain ⟨aes, haes⟩ : ∃ aes, mbedtlsAesSetkeyEnc mbedtlsCcmInit.aesSw key 128 = (.ok, aes) :=
    ⟨_, Prod.ext (setkeyEnc_ok mbedtlsCcmInit.aesSw key 128 (.inl rfl)).1 rfl⟩
  have hempty : (⟨fun _ => 0#8, []⟩ : Buf).InBounds ccmScratchSize := fun r hr => by cases hr
  simp only [mbedtlsCcmSetkey, keybitsToNwords, haes]
  exact ⟨⟨⟨_, rfl, hempty⟩, ⟨_, rfl, hempty⟩, ⟨_, rfl, hempty⟩⟩, rfl⟩

/-- A record of 16385 bytes with 13 bytes of associated data, the largest of TLS 1.3, just fits. -/
theorem ccm_scratch_bounds_largest :
    ∃ r, mbedtlsCcmEncryptAndTag softwareEngine
        (mbedtlsCcmSetkey softwareEngine mbedtlsCcmInit .aes (fun _ => 0#8) 128 ⟨-1, ()⟩).2.1
        (zeros 12) (zeros 13) (zeros 16385) (zeros 16385) (zeros 8) ⟨-1, ()⟩ = some r ∧ r.ctx.ScratchOk := by
  obtain ⟨hok, hkey⟩ := softwareEngine_scratchOk fun _ => 0#8
  obtain ⟨⟨r, hr, hiff⟩, -⟩ := ccm_scratch_bounds softwareEngine hok (zeros 12) (zeros 13) (zeros 16385)
    (zeros 16385) (zeros 8) ⟨-1, ()⟩ ⟨hkey, by simp, by simp, by simp, by simp [ccmScratchSize]⟩ rfl
  exact ⟨r, hr, hiff.mpr (by simp [macStaging, round16, ccmScratchSize])⟩

/-- A record as long as the guard allows goes over the end of `scratch_mac`. -/
theorem ccm_scratch_overrun :
    let ctx := (mbedtlsCcmSetkey softwareEngine mbedtlsCcmInit .aes (fun _ => 0#8) 128 ⟨-1, ()⟩).2.1
    ctx.ScratchOk ∧ ctx.admits 12 13 16448 8 ∧
      ∃ r, mbedtlsCcmEncryptAndTag softwareEngine ctx (zeros 12) (zeros 13) (zeros 16448) (zeros 16448) (zeros 8)
        ⟨-1, ()⟩ = some r ∧ ¬ r.ctx.ScratchOk := by
  intro ctx
  obtain ⟨hok, hkey⟩ := softwareEngine_scratchOk fun _ => 0#8
  have hadm : ctx.admits 12 13 16448 8 := ⟨hkey, by decide, by decide, by decide, by decide⟩
  refine ⟨hok, hadm, ?_⟩
  obtain ⟨r, hr, hiff⟩ := encryptAndTag_scratch softwareEngine hok (zeros 12) (zeros 13) (zeros 16448)
    (zeros 16448) (zeros 8) ⟨-1, ()⟩ (by simpa using hadm)
  refine ⟨r, hr, fun h => absurd (hiff.mp h) ?_⟩
  simp [macStaging, round16, ccmScratchSize]

end Thingino.Crypto
