import Thingino.Crypto.CcmCorrect

/-! A context never mixes two keys.

Key material is stored in several places and updated at different points, with error
returns in between. Whatever the calls of `setkey` were, in whatever order and with
whatever failures, a context that says it has a key holds its scratch and everything
derived from one of the keys it was given. A record is then encrypted under that key
by the engine and by the software alike. -/
namespace Thingino.Crypto
open Lib

/-- The arguments of one call of `mbedtls_gcm_setkey` or `mbedtls_ccm_setkey`. -/
structure SetkeyCall where
  cipher : CipherId
  key : Nat → Byte
  keybits : Nat

section Agreement
variable {ω : Type} {dev : Device ω} {aes : AesContext} {hwKey : Vector Word 8} {key : Nat → Byte} {keybits : Nat}

/-- Whatever a buffer holds, its first blocks are blocks. -/
theorem holds_blocks (inp : Buf) (n : Nat) :
    inp.Holds (ofBlocks (toBlocks (inp.read 0 (n * 16)))) ∧ (toBlocks (inp.read 0 (n * 16))).length = n := by
  have hjoin : ofBlocks (toBlocks (inp.read 0 (n * 16))) = inp.read 0 (n * 16) :=
    ofBlocks_toBlocks _ (by rw [Buf.length_read]; omega)
  refine ⟨?_, ?_⟩
  · rw [hjoin, Buf.Holds, Buf.length_read]
  · rw [length_toBlocks, Buf.length_read]
    omega

/-- Both sides of bulk ECB leave the same bytes. -/
theorem ecbBulk_agree (hdev : dev.ComputesAes) (ha : aes.Keyed key keybits) (hh : HwKeyed hwKey key keybits)
    (inp out out' : Buf) (n : Nat) (p : Proc ω) (hok : (hwEcbBulk dev hwKey keybits inp n out p).1 = .ok) :
    (hwEcbBulk dev hwKey keybits inp n out p).2.1.read 0 (n * 16) =
      (swEcbBulk aes inp out' n).2.read 0 (n * 16) := by
  obtain ⟨hin, hlen⟩ := holds_blocks inp n
  have hhw := hwEcbBulk_read hdev ha.size hh _ hin out p
  have hsw := (swEcbBulk_read ha _ hin out').2
  rw [hlen] at hhw hsw
  rw [hhw hok, hsw]

/-- Both sides of CBC-MAC give the same value. -/
theorem cbcMac_agree (hdev : dev.ComputesAes) (ha : aes.Keyed key keybits) (hh : HwKeyed hwKey key keybits)
    (inp : Buf) (n : Nat) (hn : 0 < n) (p : Proc ω) (m : Block)
    (hok : (hwCbcMac dev hwKey keybits inp (n * 16) p).1 = some m) : swCbcMac aes inp (n * 16) = some m := by
  have hlen : (inp.read 0 (n * 16)).length = n * 16 := Buf.length_read ..
  have hin : inp.Holds (inp.read 0 (n * 16)) := by rw [Buf.Holds, hlen]
  have hhw := hwCbcMac_cases hdev ha.size hh hin (by omega) (by omega) p
  have hsw := swCbcMac_eq ha hin (by omega) (by omega)
  rw [hlen, hok] at hhw
  rw [hlen] at hsw
  rcases hhw with h | ⟨h, -⟩
  · rw [hsw, h]
  · cases h

end Agreement

/-! ### `gcm_alt.c` -/

/-- The next record gets one keystream, from the engine or from software. -/
def GcmContext.BranchesAgree (ctx : GcmContext) : Prop :=
  ∀ (ω : Type) (dev : Device ω), dev.ComputesAes → ∀ (inp out out' : Buf) (n : Nat) (p : Proc ω),
    (hwEcbBulk dev ctx.hwKey ctx.keybits inp n out p).1 = .ok →
    (hwEcbBulk dev ctx.hwKey ctx.keybits inp n out p).2.1.read 0 (n * 16) =
      (swEcbBulk ctx.aesSw inp out' n).2.read 0 (n * 16)

section Gcm
variable {ω : Type} (dev : Device ω)

/-- Calls of `mbedtls_gcm_setkey`, one after the other. -/
def gcmSetkeys (calls : List SetkeyCall) (ctx : GcmContext) (p : Proc ω) : GcmContext × Proc ω :=
  calls.foldl (fun s c => (mbedtlsGcmSetkey dev s.1 c.cipher c.key c.keybits s.2).2) (ctx, p)

/-- A context with a key holds one of these. -/
def GcmContext.KeyedFrom (ctx : GcmContext) (calls : List SetkeyCall) : Prop :=
  ctx.haveKey = true → ∃ c ∈ calls, ctx.Coherent c.key c.keybits

theorem gcmSetkey_keyedFrom {ctx : GcmContext} {calls : List SetkeyCall} (h : ctx.KeyedFrom calls) (c : SetkeyCall)
    (hc : c ∈ calls) (p : Proc ω) : (mbedtlsGcmSetkey dev ctx c.cipher c.key c.keybits p).2.1.KeyedFrom calls := by
  intro hkey
  rcases gcmSetkey_cases dev ctx c.cipher c.key c.keybits p with ⟨-, hsame⟩ | ⟨-, hhave, hnull⟩ | ⟨-, -, hcoh⟩
  · rw [hsame] at hkey ⊢
    exact h hkey
  · -- a context with a key has its scratch, so this call had nothing to allocate
    obtain ⟨c', -, hcoh⟩ := h (hhave ▸ hkey)
    rcases hnull with hnull | hnull
    · exact absurd hcoh.scratchCtr (by simp [hnull])
    · exact absurd hcoh.scratchKs (by simp [hnull])
  · exact ⟨c, hc, hcoh⟩

theorem gcmSetkeys_keyedFrom (calls : List SetkeyCall) (p : Proc ω) :
    (gcmSetkeys dev calls mbedtlsGcmInit p).1.KeyedFrom calls :=
  List.foldlRecOn (motive := fun s : GcmContext × Proc ω => s.1.KeyedFrom calls) _ _
    (fun h => Bool.noConfusion h) fun s h c hc => gcmSetkey_keyedFrom dev h c hc s.2

theorem GcmContext.Coherent.branchesAgree {ctx : GcmContext} {key : Nat → Byte} {keybits : Nat}
    (h : ctx.Coherent key keybits) : ctx.BranchesAgree := by
  intro ω dev hdev inp out out' n p hok
  rw [h.bits] at hok ⊢
  exact ecbBulk_agree hdev h.aes h.hw inp out out' n p hok

end Gcm

/-! ### `ccm_alt.c` -/

/-- The next record gets one keystream and one MAC, from the engine or from software. -/
def CcmContext.BranchesAgree (ctx : CcmContext) : Prop :=
  ∀ (ω : Type) (dev : Device ω), dev.ComputesAes → ∀ (inp out out' : Buf) (n : Nat) (p : Proc ω),
    ((hwEcbBulk dev ctx.hwKey ctx.keybits inp n out p).1 = .ok →
      (hwEcbBulk dev ctx.hwKey ctx.keybits inp n out p).2.1.read 0 (n * 16) =
        (swEcbBulk ctx.aesSw inp out' n).2.read 0 (n * 16)) ∧
    (0 < n → ∀ m, (hwCbcMac dev ctx.hwKey ctx.keybits inp (n * 16) p).1 = some m →
      swCbcMac ctx.aesSw inp (n * 16) = some m)

section Ccm
variable {ω : Type} (dev : Device ω)

/-- Calls of `mbedtls_ccm_setkey`, one after the other. -/
def ccmSetkeys (calls : List SetkeyCall) (ctx : CcmContext) (p : Proc ω) : CcmContext × Proc ω :=
  calls.foldl (fun s c => (mbedtlsCcmSetkey dev s.1 c.cipher c.key c.keybits s.2).2) (ctx, p)

/-- A context with a key holds one of these. -/
def CcmContext.KeyedFrom (ctx : CcmContext) (calls : List SetkeyCall) : Prop :=
  ctx.haveKey = true → ∃ c ∈ calls, ctx.Coherent c.key c.keybits

theorem ccmSetkey_keyedFrom {ctx : CcmContext} {calls : List SetkeyCall} (h : ctx.KeyedFrom calls) (c : SetkeyCall)
    (hc : c ∈ calls) (p : Proc ω) : (mbedtlsCcmSetkey dev ctx c.cipher c.key c.keybits p).2.1.KeyedFrom calls := by
  intro hkey
  rcases ccmSetkey_cases dev ctx c.cipher c.key c.keybits p with ⟨-, hsame⟩ | ⟨-, hhave, hnull⟩ | ⟨-, -, hcoh⟩
  · rw [hsame] at hkey ⊢
    exact h hkey
  · obtain ⟨c', -, hcoh⟩ := h (hhave ▸ hkey)
    rcases hnull with hnull | hnull | hnull
    · exact absurd hcoh.scratchMac (by simp [hnull])
    · exact absurd hcoh.scratchCtr (by simp [hnull])
    · exact absurd hcoh.scratchKs (by simp [hnull])
  · exact ⟨c, hc, hcoh⟩

theorem ccmSetkeys_keyedFrom (calls : List SetkeyCall) (p : Proc ω) :
    (ccmSetkeys dev calls mbedtlsCcmInit p).1.KeyedFrom calls :=
  List.foldlRecOn (motive := fun s : CcmContext × Proc ω => s.1.KeyedFrom calls) _ _
    (fun h => Bool.noConfusion h) fun s h c hc => ccmSetkey_keyedFrom dev h c hc s.2

theorem CcmContext.Coherent.branchesAgree {ctx : CcmContext} {key : Nat → Byte} {keybits : Nat}
    (h : ctx.Coherent key keybits) : ctx.BranchesAgree := by
  intro ω dev hdev inp out out' n p
  rw [h.bits]
  exact ⟨ecbBulk_agree hdev h.aes h.hw inp out out' n p, fun hn m => cbcMac_agree hdev h.aes h.hw inp n hn p m⟩

end Ccm

/-- **One key at a time.** After any calls of `setkey` on an initialised context, with any
arguments and any allocation failures, a context with a key has its scratch and holds
one of the keys it was given, in every place; engine and software agree on the next
record. -/
theorem setkey_coherent {ω : Type} (dev : Device ω) (calls : List SetkeyCall) (p : Proc ω) :
    (let ctx := (gcmSetkeys dev calls mbedtlsGcmInit p).1
     ctx.haveKey = true → (∃ c ∈ calls, ctx.Coherent c.key c.keybits) ∧ ctx.BranchesAgree) ∧
    (let ctx := (ccmSetkeys dev calls mbedtlsCcmInit p).1
     ctx.haveKey = true → (∃ c ∈ calls, ctx.Coherent c.key c.keybits) ∧ ctx.BranchesAgree) := by
  constructor
  · intro ctx hkey
    obtain ⟨c, hc, h⟩ := gcmSetkeys_keyedFrom dev calls p hkey
    exact ⟨⟨c, hc, h⟩, h.branchesAgree⟩
  · intro ctx hkey
    obtain ⟨c, hc, h⟩ := ccmSetkeys_keyedFrom dev calls p hkey
    exact ⟨⟨c, hc, h⟩, h.branchesAgree⟩

/-- A 256-bit key, a call with a size AES does not have, then a 128-bit key. -/
theorem setkey_coherent_shrinking :
    let calls : List SetkeyCall :=
      [⟨.aes, fun i => BitVec.ofNat 8 i, 256⟩, ⟨.aes, fun _ => 0#8, 100⟩, ⟨.aes, fun _ => 7#8, 128⟩]
    (gcmSetkeys softwareEngine calls mbedtlsGcmInit ⟨-1, ()⟩).1.BranchesAgree ∧
      (ccmSetkeys softwareEngine calls mbedtlsCcmInit ⟨-1, ()⟩).1.BranchesAgree := by
  intro calls
  obtain ⟨hgcm, hccm⟩ := setkey_coherent softwareEngine calls ⟨-1, ()⟩
  refine ⟨(hgcm ?_).2, (hccm ?_).2⟩
  · obtain ⟨hok, -⟩ | ⟨hok, -⟩ | ⟨-, hkey, -⟩ := gcmSetkey_cases softwareEngine
      (gcmSetkeys softwareEngine [⟨.aes, fun i => BitVec.ofNat 8 i, 256⟩, ⟨.aes, fun _ => 0#8, 100⟩]
        mbedtlsGcmInit ⟨-1, ()⟩).1 .aes (fun _ => 7#8) 128 ⟨-1, ()⟩
    · rw [gcmSetkey_ok (fun _ _ => rfl) _ _ 128 (.inl rfl)] at hok
      cases hok
    · rw [gcmSetkey_ok (fun _ _ => rfl) _ _ 128 (.inl rfl)] at hok
      cases hok
    · exact hkey
  · obtain ⟨hok, -⟩ | ⟨hok, -⟩ | ⟨-, hkey, -⟩ := ccmSetkey_cases softwareEngine
      (ccmSetkeys softwareEngine [⟨.aes, fun i => BitVec.ofNat 8 i, 256⟩, ⟨.aes, fun _ => 0#8, 100⟩]
        mbedtlsCcmInit ⟨-1, ()⟩).1 .aes (fun _ => 7#8) 128 ⟨-1, ()⟩
    · rw [ccmSetkey_ok (fun _ _ => rfl) _ _ 128 (.inl rfl)] at hok
      cases hok
    · rw [ccmSetkey_ok (fun _ _ => rfl) _ _ 128 (.inl rfl)] at hok
      cases hok
    · exact hkey

end Thingino.Crypto
