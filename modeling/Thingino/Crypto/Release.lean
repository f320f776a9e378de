import Thingino.Crypto.CcmScratch

/-! What a failed decryption leaves in the caller's output.

`mbedtls_gcm_auth_decrypt` checks the tag before it writes anything: every error exit
leaves the output as it was or zeroed. `mbedtls_ccm_auth_decrypt` cannot, since its
MAC is over the plaintext; it zeroes the output when the tag is wrong, but not on the
exit in between, when the engine has decrypted the record and then refuses the MAC. -/
namespace Thingino.Crypto
open Lib

section Gcm
variable {ω : Type} {dev : Device ω} {ctx : GcmContext}

/-- A failed counter pass has not touched the output. -/
theorem gcmCryptInternal_failed {iv input output : List Byte} {p : Proc ω}
    {r : Status × List Byte × GcmContext × Proc ω} (h : gcmCryptInternal dev ctx iv input output p = some r)
    (hret : r.1 ≠ .ok) : r.2.1 = output := by
  unfold gcmCryptInternal at h
  split at h
  · cases h
    rfl
  · split at h
    · cases h
      rfl
    · dsimp only at h
      split at h
      · split at h
        · cases h
          exact absurd rfl hret
        · cases h
          rfl
      · cases h

theorem overlay_zeros (out : List Byte) (n : Nat) (h : out.length = n) : overlay (zeros n) out = zeros n := by
  rw [overlay, List.drop_eq_nil_of_le (by rw [length_zeros]; omega), List.append_nil]

/-- Every error exit of the GCM call. -/
theorem gcmAuthDecrypt_failed {iv ad tag ct out : List Byte} {p : Proc ω} {r : AeadResult GcmContext ω}
    (hout : out.length = ct.length) (h : mbedtlsGcmAuthDecrypt dev ctx iv ad tag ct out p = some r)
    (hret : r.ret ≠ .ok) : r.output = out ∨ r.output = zeros ct.length := by
  unfold mbedtlsGcmAuthDecrypt at h
  split at h
  · cases h
    exact .inl rfl
  · split at h
    · cases h
      exact .inl rfl
    · dsimp only at h
      split at h
      · cases h
        exact .inl rfl
      · split at h
        · cases h
          exact .inr (overlay_zeros out _ hout)
        · cases hc : gcmCryptInternal dev ctx iv ct out p with
          | none => simp [hc] at h
          | some c =>
            have hfail := gcmCryptInternal_failed hc
            simp only [hc, Option.bind_eq_bind, Option.bind_some] at h
            split at h
            · cases h
              exact .inl (hfail (by assumption))
            · cases h
              exact absurd rfl hret

/-- With its scratch in place the counter pass has a value. -/
theorem gcmCryptInternal_some (dev : Device ω) (hctr : ctx.scratchCtr.isSome) (hks : ctx.scratchKs.isSome)
    (iv input output : List Byte) (p : Proc ω) : ∃ r, gcmCryptInternal dev ctx iv input output p = some r := by
  obtain ⟨ctr, hctr⟩ := Option.isSome_iff_exists.mp hctr
  obtain ⟨ks, hks⟩ := Option.isSome_iff_exists.mp hks
  unfold gcmCryptInternal
  split
  · exact ⟨_, rfl⟩
  · split
    · exact ⟨_, rfl⟩
    · simp only [hctr, hks]
      split
      · exact ⟨_, rfl⟩
      · exact ⟨_, rfl⟩

theorem gcmAuthDecrypt_some (dev : Device ω) (hctr : ctx.scratchCtr.isSome) (hks : ctx.scratchKs.isSome)
    (iv ad tag ct out : List Byte) (p : Proc ω) : ∃ r, mbedtlsGcmAuthDecrypt dev ctx iv ad tag ct out p = some r := by
  obtain ⟨c, hc⟩ := gcmCryptInternal_some dev hctr hks iv ct out p
  unfold mbedtlsGcmAuthDecrypt
  split
  · exact ⟨_, rfl⟩
  · split
    · exact ⟨_, rfl⟩
    · simp only [hc, Option.bind_eq_bind, Option.bind_some]
      split
      · exact ⟨_, rfl⟩
      · split
        · exact ⟨_, rfl⟩
        · split
          · exact ⟨_, rfl⟩
          · exact ⟨_, rfl⟩

end Gcm

section Ccm
variable {ω : Type} {dev : Device ω} {ctx : CcmContext} {key : Nat → Byte} {keybits : Nat}

/-- From `w`, the MAC of `l` gets no buffer for its output or is not finished. -/
def MacFails (dev : Device ω) (ctx : CcmContext) (l : List Byte) (w : ω) : Prop :=
  match dev.malloc w l.length with
  | (none, _) => True
  | (some _, w') => ¬ done (dev.ioctl w' (cbcMacRequest ctx.hwKey ctx.keybits l)).1 l.length

theorem hwCbcMac_none_iff {input : Buf} {l : List Byte} (hin : input.Holds l) (hpos : 0 < l.length)
    (hl : l.length % 16 = 0) (p : Proc ω) :
    (hwCbcMac dev ctx.hwKey ctx.keybits input l.length p).1 = none ↔ MacFails dev ctx l p.world := by
  have hsrc : input.read 0 l.length = l := hin
  unfold hwCbcMac MacFails
  rw [if_neg (by omega), hsrc]
  rcases dev.malloc p.world l.length with ⟨_ | tmp, w⟩
  · exact iff_of_true rfl trivial
  · dsimp only
    by_cases hd : done (dev.ioctl w (cbcMacRequest ctx.hwKey ctx.keybits l)).1 l.length
    · simp [hd]
    · simp [hd]

theorem ccmMacPass_none_iff (dev : Device ω) (ctx : CcmContext) (iv ad pt : List Byte) (tagLen : Nat)
    (hiv : 7 ≤ iv.length ∧ iv.length ≤ 13) (htag : 4 ≤ tagLen ∧ tagLen ≤ 16) (had : ad.length < 0xff00) (mac : Buf)
    (p : Proc ω) :
    (ccmMacPass dev ctx true iv ad pt tagLen mac p).1 = none ↔
      MacFails dev ctx (Ccm.macInput iv ad pt tagLen) p.world := by
  obtain ⟨hholds, hlen⟩ := buildMacInput_holds (mac.write 0 (zeros (macStaging ad.length pt.length))) iv ad pt tagLen
    hiv htag had
  have hl := length_macInput iv ad pt tagLen hiv.2
  simp only [round16] at hl
  rw [← hwCbcMac_none_iff hholds (by omega) (by omega) p, ← hlen]
  rfl

/-- A failed counter pass has not touched the output. -/
theorem ccmCtrPass_failed {hw : Bool} {iv input output : List Byte} {ctr ks : Buf} {p : Proc ω}
    (h : (ccmCtrPass dev ctx hw iv input output ctr ks p).ok = false) :
    (ccmCtrPass dev ctx hw iv input output ctr ks p).output = output := by
  revert h
  unfold ccmCtrPass
  dsimp only
  split
  · split
    · exact fun h => by cases h
    · exact fun _ => rfl
  · exact fun _ => rfl

/-- The engine's counter pass moves the world by one request. -/
theorem ccmCtrPass_world (dev : Device ω) (ctx : CcmContext) (iv input output : List Byte)
    (hiv : 7 ≤ iv.length ∧ iv.length ≤ 13) (hlen : 0 < input.length) (ctr ks : Buf) (p : Proc ω) :
    (ccmCtrPass dev ctx true iv input output ctr ks p).proc.world =
      (dev.ioctl p.world (ecbRequest ctx.hwKey ctx.keybits (ccmCounters iv input.length))).2 := by
  have h0 : 0 < (input.length + 15) / 16 := by omega
  unfold ccmCtrPass
  simp only [if_pos h0, ecbBulk, if_true, hwEcbBulk, if_neg (Nat.ne_of_gt h0), read_counters ctr iv hiv]
  split <;> rfl

/-- The engine finishes the keystream of an admitted record, and then fails its MAC. -/
def MacFailsAfterDecrypt (dev : Device ω) (ctx : CcmContext) (iv ad ct pt : List Byte) (tagLen : Nat) (p : Proc ω) :
    Prop :=
  let choice := useHw (ccmHwFdGet dev) ccmHwMinSize ct.length p
  let r := dev.ioctl choice.2.world (ecbRequest ctx.hwKey ctx.keybits (ccmCounters iv ct.length))
  ctx.admits iv.length ad.length ct.length tagLen ∧ choice.1 = true ∧ done r.1 ((ct.length + 15) / 16 * 16) ∧
    MacFails dev ctx (Ccm.macInput iv ad pt tagLen) r.2

/-- After the keystream, the MAC fails on the engine's side only. -/
theorem macPass_after_keystream (hdev : dev.ComputesAes) (h : ctx.Coherent key keybits) {hw : Bool}
    (iv ad ct out pt : List Byte) {tagLen : Nat} (hiv : 7 ≤ iv.length ∧ iv.length ≤ 13)
    (htag : 4 ≤ tagLen ∧ tagLen ≤ 16) (had : ad.length < 0xff00) (hmin : hw = true → ccmHwMinSize ≤ ct.length)
    (mac ctr ks : Buf) (q : Proc ω) :
    (ccmMacPass dev ctx hw iv ad pt tagLen mac (ccmCtrPass dev ctx hw iv ct out ctr ks q).proc).1 = none ↔
      hw = true ∧ MacFails dev ctx (Ccm.macInput iv ad pt tagLen)
        (dev.ioctl q.world (ecbRequest ctx.hwKey ctx.keybits (ccmCounters iv ct.length))).2 := by
  cases hw with
  | false =>
    refine iff_of_false ?_ fun hfalse => Bool.false_ne_true hfalse.1
    rcases ccmMacPass_spec hdev h false iv ad pt tagLen hiv htag had mac
      (ccmCtrPass dev ctx false iv ct out ctr ks q).proc with hsome | ⟨hfalse, -⟩
    · rw [hsome]
      exact Option.some_ne_none _
    · cases hfalse
  | true =>
    have hpos : 0 < ct.length := Nat.lt_of_lt_of_le (by decide) (hmin rfl)
    rw [ccmMacPass_none_iff dev ctx iv ad pt tagLen hiv htag had mac, ccmCtrPass_world dev ctx iv ct out hiv hpos]
    exact (and_iff_right rfl).symm

/-- Every exit of the CCM call. -/
theorem ccmAuthDecrypt_exits (hdev : dev.ComputesAes) (h : ctx.Coherent key keybits) (iv ad ct out tag : List Byte)
    (p : Proc ω) (hout : out.length = ct.length) :
    let pt := Ccm.encrypt (aesEncrypt key keybits) iv ct
    ∃ r, mbedtlsCcmAuthDecrypt dev ctx iv ad ct out tag p = some r ∧
      (MacFailsAfterDecrypt dev ctx iv ad ct pt tag.length p ∧ r.ret = .hwAccelFailed ∧ r.output = pt ∨
        ¬ MacFailsAfterDecrypt dev ctx iv ad ct pt tag.length p ∧
          (r.ret = .ok ∨ r.output = out ∨ r.output = zeros ct.length)) := by
  intro pt
  by_cases hadm : ctx.admits iv.length ad.length ct.length tag.length
  · obtain ⟨mac, hmac⟩ := Option.isSome_iff_exists.mp h.scratchMac
    obtain ⟨ctr, hctr⟩ := Option.isSome_iff_exists.mp h.scratchCtr
    obtain ⟨ks, hks⟩ := Option.isSome_iff_exists.mp h.scratchKs
    have hadm' := hadm
    obtain ⟨-, hiv, ⟨ht1, ht2, -⟩, had, -⟩ := hadm'
    have hmin := useHw_min (ccmHwFdGet dev) ccmHwMinSize ct.length p
    unfold mbedtlsCcmAuthDecrypt MacFailsAfterDecrypt
    rw [if_neg (not_not_intro hadm), hmac, hctr, hks]
    generalize useHw (ccmHwFdGet dev) ccmHwMinSize ct.length p = choice at hmin ⊢
    obtain ⟨hw, q⟩ := choice
    dsimp only at hmin ⊢
    have hspec := ccmCtrPass_spec hdev h hw iv ct out hiv ctr ks q
    have hok := ccmCtrPass_ok_iff dev ctx hw iv ct out hiv hmin ctr ks q
    by_cases hcok : (ccmCtrPass dev ctx hw iv ct out ctr ks q).ok = true
    · have hco : (ccmCtrPass dev ctx hw iv ct out ctr ks q).output = pt := by
        rcases hspec with ⟨-, hco⟩ | ⟨-, hno, -⟩
        · rw [hco, overlay_encrypt _ _ _ _ hout]
        · rw [hcok] at hno
          cases hno
      have htake : (ccmCtrPass dev ctx hw iv ct out ctr ks q).output.take ct.length = pt := by
        rw [hco]
        exact List.take_of_length_le (by rw [Ccm.length_encrypt])
      rw [if_pos hcok, htake]
      have hmacPass := macPass_after_keystream hdev h iv ad ct out pt hiv ⟨ht1, ht2⟩ had hmin mac ctr ks q
      cases hm : (ccmMacPass dev ctx hw iv ad pt tag.length mac (ccmCtrPass dev ctx hw iv ct out ctr ks q).proc).1 with
      | none =>
        -- the exit between the two passes
        obtain ⟨rfl, hfails⟩ := hmacPass.mp hm
        refine ⟨_, rfl, .inl ⟨⟨hadm, rfl, ?_, hfails⟩, rfl, hco⟩⟩
        simpa using hok.mp hcok
      | some m =>
        have hnot : ¬ (hw = true ∧ MacFails dev ctx (Ccm.macInput iv ad pt tag.length)
            (dev.ioctl q.world (ecbRequest ctx.hwKey ctx.keybits (ccmCounters iv ct.length))).2) := fun hfails => by
          rw [hmacPass.mpr hfails] at hm
          cases hm
        simp only [ccmMask_eq h]
        split
        · refine ⟨_, rfl, .inr ⟨fun hfails => hnot ⟨hfails.2.1, hfails.2.2.2⟩, .inr (.inr ?_)⟩⟩
          exact overlay_zeros _ _ (by rw [hco]; exact Ccm.length_encrypt ..)
        · exact ⟨_, rfl, .inr ⟨fun hfails => hnot ⟨hfails.2.1, hfails.2.2.2⟩, .inl rfl⟩⟩
    · have hno := Bool.eq_false_iff.mpr hcok
      rw [if_neg hcok]
      refine ⟨_, rfl, .inr ⟨?_, .inr (.inl (ccmCtrPass_failed hno))⟩⟩
      rintro ⟨-, hhw, hdone, -⟩
      exact hcok (hok.mpr fun hbad => hbad.2 hdone)
  · refine ⟨⟨.ccmBadInput, out, tag, ctx, p⟩, if_pos hadm, .inr ⟨fun hfails => hadm hfails.1, .inr (.inl rfl)⟩⟩

/-- A string differs from its complement, unless it is empty. -/
theorem eq_nil_of_eq_complement {l : List Byte} (h : l = l.map (~~~ ·)) : l = [] := by
  cases l with
  | nil => rfl
  | cons b bs =>
    rw [List.map_cons, List.cons.injEq] at h
    have hbit := congrArg (fun x : Byte => x.getLsbD 0) h.1
    simp at hbit

end Ccm

/-- **When nothing unauthenticated is released.** A failed `mbedtls_gcm_auth_decrypt`
always leaves the output as it was or zeroed. A failed `mbedtls_ccm_auth_decrypt` does,
whatever the output held before, exactly when the engine does not finish the keystream
of the record and then fail its MAC, or when the record is all zeros anyway. -/
theorem authDecrypt_release {ω : Type} (dev : Device ω) (key : Nat → Byte) (keybits : Nat) :
    (∀ ctx : GcmContext, ctx.KeyedBy dev key keybits → ∀ (iv ad tag ct out : List Byte) (p : Proc ω),
      out.length = ct.length →
      ∃ r, mbedtlsGcmAuthDecrypt dev ctx iv ad tag ct out p = some r ∧
        (r.ret ≠ .ok → r.output = out ∨ r.output = zeros ct.length)) ∧
    (dev.ComputesAes → ∀ ctx : CcmContext, ctx.KeyedBy dev key keybits →
      ∀ (iv ad tag ct : List Byte) (p : Proc ω),
      let pt := Ccm.encrypt (fun b => (mbedtlsAesCryptEcb ctx.aesSw .encrypt b).2) iv ct
      (∀ out : List Byte, out.length = ct.length →
        ∃ r, mbedtlsCcmAuthDecrypt dev ctx iv ad ct out tag p = some r ∧
          (r.ret ≠ .ok → r.output = out ∨ r.output = zeros ct.length)) ↔
      ¬ (MacFailsAfterDecrypt dev ctx iv ad ct pt tag.length p ∧ pt ≠ zeros ct.length)) := by
  constructor
  · intro ctx hctx iv ad tag ct out p hout
    obtain ⟨-, h⟩ := hctx.coherent
    obtain ⟨r, hr⟩ := gcmAuthDecrypt_some dev h.scratchCtr h.scratchKs iv ad tag ct out p
    exact ⟨r, hr, gcmAuthDecrypt_failed hout hr⟩
  · intro hdev ctx hctx iv ad tag ct p pt
    obtain ⟨-, h⟩ := hctx.coherent
    have hpt : pt = Ccm.encrypt (aesEncrypt key keybits) iv ct := by
      simp only [pt, h.aes.encrypt]
    have hlen : pt.length = ct.length := Ccm.length_encrypt ..
    constructor
    · rintro hall ⟨hfails, hne⟩
      -- an output whose bytes all differ from the plaintext's
      have hneg : (pt.map (~~~ ·)).length = ct.length := by rw [List.length_map, hlen]
      obtain ⟨r, hr, hrelease⟩ := hall (pt.map (~~~ ·)) hneg
      obtain ⟨r', hr', hexit⟩ := ccmAuthDecrypt_exits hdev h iv ad ct (pt.map (~~~ ·)) tag p hneg
      rw [hr] at hr'
      cases hr'
      rw [← hpt] at hexit
      rcases hexit with ⟨-, hret, hro⟩ | ⟨hnot, -⟩
      · rcases hrelease (by rw [hret]; decide) with hold | hzero
        · rw [eq_nil_of_eq_complement (hro.symm.trans hold)] at hlen hne
          rw [← hlen] at hne
          exact hne rfl
        · exact hne (hro.symm.trans hzero)
      · exact hnot hfails
    · intro hsafe out hout
      obtain ⟨r, hr, hexit⟩ := ccmAuthDecrypt_exits hdev h iv ad ct out tag p hout
      rw [← hpt] at hexit
      refine ⟨r, hr, fun hret => ?_⟩
      rcases hexit with ⟨hfails, -, hro⟩ | ⟨-, hok | hold | hzero⟩
      · exact .inr (hro.trans (Decidable.byContradiction fun hne => hsafe ⟨hfails, hne⟩))
      · exact absurd hok hret
      · exact .inl hold
      · exact .inr hzero

/-- On a device that answers everything both calls keep their promise for a record of 600 bytes. -/
theorem authDecrypt_release_softwareEngine :
    let gctx := (mbedtlsGcmSetkey softwareEngine mbedtlsGcmInit .aes (fun _ => 0#8) 128 ⟨-1, ()⟩).2.1
    let cctx := (mbedtlsCcmSetkey softwareEngine mbedtlsCcmInit .aes (fun _ => 0#8) 128 ⟨-1, ()⟩).2.1
    (∃ r, mbedtlsGcmAuthDecrypt softwareEngine gctx (zeros 12) [] (zeros 16) (zeros 600) (zeros 600) ⟨-1, ()⟩ = some r ∧
      (r.ret ≠ .ok → r.output = zeros 600 ∨ r.output = zeros (zeros 600).length)) ∧
    (∃ r, mbedtlsCcmAuthDecrypt softwareEngine cctx (zeros 12) [] (zeros 600) (zeros 600) (zeros 16) ⟨-1, ()⟩ = some r ∧
      (r.ret ≠ .ok → r.output = zeros 600 ∨ r.output = zeros (zeros 600).length)) := by
  intro gctx cctx
  obtain ⟨hgcm, hccm⟩ := authDecrypt_release softwareEngine (fun _ => 0#8) 128
  have hgctx : gctx.KeyedBy softwareEngine (fun _ => 0#8) 128 :=
    ⟨_, .aes, _, _, Prod.ext (gcmSetkey_ok (fun _ _ => rfl) mbedtlsGcmInit _ 128 (.inl rfl) ⟨-1, ()⟩) rfl⟩
  have hcctx : cctx.KeyedBy softwareEngine (fun _ => 0#8) 128 :=
    ⟨_, .aes, _, _, Prod.ext (ccmSetkey_ok (fun _ _ => rfl) mbedtlsCcmInit _ 128 (.inl rfl) ⟨-1, ()⟩) rfl⟩
  refine ⟨hgcm gctx hgctx _ _ _ _ _ _ rfl, (hccm softwareEngine_computes cctx hcctx _ _ _ _ _).mpr ?_ _ rfl⟩
  rintro ⟨⟨-, -, -, hfails⟩, -⟩
  refine hfails ⟨Int.le_refl 0, Nat.mod_eq_of_lt ?_⟩
  rw [length_macInput _ _ _ _ (by decide), Ccm.length_encrypt, length_zeros]
  decide

/-! ### The exit in between -/

/-- The software engine, refusing every CBC request. -/
def macRefusingEngine : Device Unit where
  openAes := softwareEngine.openAes
  ioctl := fun w p => if p.enworkmode = .encCbc then (⟨-1, [], 0#32⟩, w) else softwareEngine.ioctl w p
  malloc := softwareEngine.malloc

theorem macRefusingEngine_computes : macRefusingEngine.ComputesAes := by
  intro w p key keybits iv hc hiv hlen hdata hdone
  by_cases hcbc : p.enworkmode = .encCbc
  · simp [macRefusingEngine, hcbc, done] at hdone
  · have hio : macRefusingEngine.ioctl w p = softwareEngine.ioctl w p := if_neg hcbc
    rw [hio] at hdone ⊢
    exact softwareEngine_computes w p key keybits iv hc hiv hlen hdata hdone

/-- A genuine ciphertext of 512 one-bytes: the call fails, and the caller's zeroed buffer
holds the 512 one-bytes. -/
theorem ccm_releases_plaintext :
    let ctx := (mbedtlsCcmSetkey macRefusingEngine mbedtlsCcmInit .aes (fun _ => 0#8) 128 ⟨-1, ()⟩).2.1
    let E := fun b => (mbedtlsAesCryptEcb ctx.aesSw .encrypt b).2
    ∃ r, mbedtlsCcmAuthDecrypt macRefusingEngine ctx (zeros 12) []
        (Ccm.encrypt E (zeros 12) (List.replicate 512 1#8)) (zeros 512) (zeros 8) ⟨-1, ()⟩ = some r ∧
      r.ret ≠ .ok ∧ r.output = List.replicate 512 1#8 ∧ r.output ≠ zeros 512 := by
  intro ctx E
  have hctx : ctx.KeyedBy macRefusingEngine (fun _ => 0#8) 128 :=
    ⟨_, .aes, _, _, Prod.ext (ccmSetkey_ok (fun _ _ => rfl) mbedtlsCcmInit _ 128 (.inl rfl) ⟨-1, ()⟩) rfl⟩
  obtain ⟨hkey, h⟩ := hctx.coherent
  have hE : E = aesEncrypt (fun _ => 0#8) 128 := by
    funext b
    simp only [E, h.aes.encrypt]
  have hlen : (Ccm.encrypt E (zeros 12) (List.replicate 512 1#8)).length = 512 := by
    rw [Ccm.length_encrypt, List.length_replicate]
  obtain ⟨r, hr, hexit⟩ := ccmAuthDecrypt_exits macRefusingEngine_computes h (zeros 12) []
    (Ccm.encrypt E (zeros 12) (List.replicate 512 1#8)) (zeros 512) (zeros 8) ⟨-1, ()⟩ (by rw [hlen, length_zeros])
  rw [← hE, Ccm.encrypt_encrypt] at hexit
  have hfails : MacFailsAfterDecrypt macRefusingEngine ctx (zeros 12) []
      (Ccm.encrypt E (zeros 12) (List.replicate 512 1#8)) (List.replicate 512 1#8) (zeros 8).length ⟨-1, ()⟩ := by
    unfold MacFailsAfterDecrypt
    rw [hlen]
    refine ⟨⟨hkey, by decide, by decide, by decide, by decide⟩, rfl, ⟨Int.le_refl 0, ?_⟩, ?_⟩
    · show (BitVec.ofNat 32 (ccmCounters (zeros 12) 512).length).toNat = _
      rw [ccmCounters, length_ofBlocks, List.length_map, List.length_range]
      rfl
    · exact fun hd => absurd (show (0 : Int) ≤ -1 from hd.1) (by decide)
  refine ⟨r, hr, ?_⟩
  rcases hexit with ⟨-, hret, hro⟩ | ⟨hnot, -⟩
  · rw [hret, hro]
    exact ⟨by decide, rfl, by decide⟩
  · exact absurd hfails hnot

end Thingino.Crypto
