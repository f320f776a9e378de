import Thingino.Crypto.GcmAlt

/-! `ccm_alt.c`: counter mode with CBC-MAC over the engine.

The MAC input and the counter blocks are laid out by hand in scratch buffers of the
context, and both passes over a record of at least 512 bytes go to the engine. A
buffer records where it was written, and is not cut off at its size: whether the
writes stay inside is a matter for the results. Encryption runs the MAC before the
counter pass; decryption has to run the counter pass first, straight into the
caller's output. -/
namespace Thingino.Crypto
open Lib

/-- `MBEDTLS_CCM_ALT_SCRATCH_SIZE`. -/
def ccmScratchSize : Nat := 16 * 1024 + 64

/-- `CCM_ALT_HW_MIN_SIZE`. -/
def ccmHwMinSize : Nat := 512

structure CcmContext where
  aesSw : AesContext
  hwKey : Vector Word 8
  keybits : Nat
  haveKey : Bool
  scratchMac : Option Buf
  scratchCtr : Option Buf
  scratchKs : Option Buf

/-! ### CBC-MAC -/

section Mac
variable {ω : Type} (dev : Device ω)

def cbcMacRequest (key : Vector Word 8) (keybits : Nat) (src : List Byte) : JzAesPara :=
  { enworkmode := .encCbc
    aeskey := requestKey key keybits
    aesiv := Vector.replicate 4 0#32
    src := src
    datalen := BitVec.ofNat 32 src.length
    keybits := keybits
    flags := aesFlagBswap }

/-- The last block of CBC from a zero vector, through a buffer allocated for it; `none` for `-1`. -/
def hwCbcMac (key : Vector Word 8) (keybits : Nat) (input : Buf) (inputLen : Nat) (p : Proc ω) :
    Option Block × Proc ω :=
  if inputLen = 0 ∨ inputLen % 16 ≠ 0 then (none, p)
  else
    match dev.malloc p.world inputLen with
    | (none, w) => (none, { p with world := w })
    | (some tmpOut, w) =>
      let req := cbcMacRequest key keybits (input.read 0 inputLen)
      let (r, w) := dev.ioctl w req
      let p := { p with world := w }
      if done r inputLen then
        let tmpOut := tmpOut.write 0 (moved r req)
        (some (Block.ofList (tmpOut.read (inputLen - 16) 16)), p)
      else (none, p)

/-- One block in software, `none` when the cipher reports an error. -/
def ecbBlock (aes : AesContext) (b : Block) : Option Block :=
  match mbedtlsAesCryptEcb aes .encrypt b with
  | (.ok, c) => some c
  | _ => none

def swCbcMac (aes : AesContext) (input : Buf) (inputLen : Nat) : Option Block :=
  if inputLen = 0 ∨ inputLen % 16 ≠ 0 then none
  else (List.range (inputLen / 16)).foldlM
    (fun y k => ecbBlock aes (Block.xor y (Block.ofList (input.read (16 * k) 16)))) Block.zero

end Mac

/-! ### Laying out blocks -/

/-- `for (i = 0; i < q; i++) buf[off + q - 1 - i] = (x >> (8 * i)) & 0xff`. -/
def putBe (buf : Buf) (off q x : Nat) : Buf :=
  (List.range q).foldl (fun b i => b.write (off + q - 1 - i) [BitVec.ofNat 8 (x >>> (8 * i))]) buf

/-- `while (off % 16) buf[off++] = 0`. -/
def padTo16 (buf : Buf) (off : Nat) : Buf × Nat :=
  if off % 16 = 0 then (buf, off) else padTo16 (buf.write off [0#8]) (off + 1)
termination_by (16 - off % 16) % 16
decreasing_by omega

def b0Flags (ivLen adLen tagLen : Nat) : Byte :=
  (if 0 < adLen then 0x40#8 else 0#8) ||| (BitVec.ofNat 8 ((tagLen - 2) / 2) <<< 3) ||| BitVec.ofNat 8 (15 - ivLen - 1)

/-- The associated data with its encoded length. -/
def putAd (buf : Buf) (off : Nat) (ad : List Byte) : Buf × Nat :=
  let n := ad.length
  if 0 < n then
    let (buf, off) :=
      if n < 0xff00 then
        ((buf.write off [BitVec.ofNat 8 (n >>> 8)]).write (off + 1) [BitVec.ofNat 8 n], off + 2)
      else
        (((((((buf.write off [0xff#8]).write (off + 1) [0xfe#8]).write (off + 2) [BitVec.ofNat 8 (n >>> 24)]).write
          (off + 3) [BitVec.ofNat 8 (n >>> 16)]).write (off + 4) [BitVec.ofNat 8 (n >>> 8)]).write
          (off + 5) [BitVec.ofNat 8 n]), off + 6)
    padTo16 (buf.write off ad) (off + n)
  else (buf, off)

/-- The input of the MAC and its length. -/
def buildMacInput (buf : Buf) (iv ad pt : List Byte) (tagLen : Nat) : Buf × Nat :=
  let q := 15 - iv.length
  let buf := buf.write 0 [b0Flags iv.length ad.length tagLen]
  let buf := buf.write 1 iv
  let buf := putBe buf (1 + iv.length) q pt.length
  let off := 1 + iv.length + q
  let (buf, off) := putAd buf off ad
  if 0 < pt.length then padTo16 (buf.write off pt) (off + pt.length) else (buf, off)

/-- The first `n` counter blocks, `Ctr_1` to `Ctr_n`. -/
def ccmBuildCtrBlocks (ctr : Buf) (iv : List Byte) : Nat → Buf
  | 0 => ctr
  | n + 1 =>
    let ctr := ccmBuildCtrBlocks ctr iv n
    let ctr := ctr.write (n * 16) [BitVec.ofNat 8 (15 - iv.length - 1)]
    let ctr := ctr.write (n * 16 + 1) iv
    putBe ctr (n * 16 + 1 + iv.length) (15 - iv.length) (n + 1)

def buildCtr0 (iv : List Byte) : Block :=
  Block.ofList (BitVec.ofNat 8 (15 - iv.length - 1) :: (iv ++ zeros (15 - iv.length)))

/-! ### The public calls -/

def mbedtlsCcmInit : CcmContext :=
  { aesSw := mbedtlsAesInit
    hwKey := Vector.replicate 8 0#32
    keybits := 0
    haveKey := false
    scratchMac := none
    scratchCtr := none
    scratchKs := none }

/-- What both one-shot calls ask of their arguments. -/
def CcmContext.admits (ctx : CcmContext) (ivLen adLen length tagLen : Nat) : Prop :=
  ctx.haveKey = true ∧ (7 ≤ ivLen ∧ ivLen ≤ 13) ∧ (4 ≤ tagLen ∧ tagLen ≤ 16 ∧ tagLen % 2 = 0) ∧
    adLen < 0xff00 ∧ length ≤ ccmScratchSize

instance (ctx : CcmContext) (ivLen adLen length tagLen : Nat) : Decidable (ctx.admits ivLen adLen length tagLen) :=
  inferInstanceAs (Decidable (_ ∧ _))

/-- `(n + 15) & ~15`. -/
def round16 (n : Nat) : Nat := (n + 15) / 16 * 16

/-- How much of `scratch_mac` the `memset` clears. -/
def macStaging (adLen length : Nat) : Nat := 32 + round16 (2 + adLen) + round16 length

section OneShot
variable {ω : Type} (dev : Device ω)

def mbedtlsCcmSetkey (ctx : CcmContext) (cipher : CipherId) (key : Nat → Byte) (keybits : Nat) (p : Proc ω) :
    Status × CcmContext × Proc ω :=
  if cipher ≠ .aes then (.ccmBadInput, ctx, p)
  else
    match keybitsToNwords keybits with
    | none => (.ccmBadInput, ctx, p)
    | some nwords =>
      let ctx := { ctx with hwKey := packKey key nwords ctx.hwKey }
      match mbedtlsAesSetkeyEnc ctx.aesSw key keybits with
      | (.ok, aes) =>
        let ctx := { ctx with aesSw := aes }
        let (scratchMac, p) := mallocUnless dev ctx.scratchMac ccmScratchSize p
        let (scratchCtr, p) := mallocUnless dev ctx.scratchCtr ccmScratchSize p
        let (scratchKs, p) := mallocUnless dev ctx.scratchKs ccmScratchSize p
        if scratchMac.isNone ∨ scratchCtr.isNone ∨ scratchKs.isNone then
          (.hwAccelFailed, { ctx with scratchMac := none, scratchCtr := none, scratchKs := none }, p)
        else
          (.ok, { ctx with
            scratchMac := scratchMac, scratchCtr := scratchCtr, scratchKs := scratchKs
            keybits := keybits, haveKey := true }, p)
      | (ret, aes) => (ret, { ctx with aesSw := aes }, p)

/-- The MAC pass: clear the staging area, lay the input out in it, run CBC-MAC on one side. -/
def ccmMacPass (ctx : CcmContext) (hw : Bool) (iv ad pt : List Byte) (tagLen : Nat) (mac : Buf) (p : Proc ω) :
    Option Block × Buf × Proc ω :=
  let mac := mac.write 0 (zeros (macStaging ad.length pt.length))
  let (mac, macLen) := buildMacInput mac iv ad pt tagLen
  if hw then
    let (m, p) := hwCbcMac dev ctx.hwKey ctx.keybits mac macLen p
    (m, mac, p)
  else (swCbcMac ctx.aesSw mac macLen, mac, p)

/-- What the counter pass leaves. -/
structure CtrPass (ω : Type) where
  ok : Bool
  output : List Byte
  ctr : Buf
  ks : Buf
  proc : Proc ω

/-- The counter pass: keystream, then the output. -/
def ccmCtrPass (ctx : CcmContext) (hw : Bool) (iv input output : List Byte) (ctr ks : Buf) (p : Proc ω) :
    CtrPass ω :=
  let nCtr := (input.length + 15) / 16
  if 0 < nCtr then
    let ctr := ccmBuildCtrBlocks ctr iv nCtr
    let (ret, ks, p) := ecbBulk dev hw ctx.hwKey ctx.keybits ctx.aesSw ctr nCtr ks p
    if ret = .ok then ⟨true, overlay (xorBytes input (ks.read 0 input.length)) output, ctr, ks, p⟩
    else ⟨false, output, ctr, ks, p⟩
  else ⟨true, output, ctr, ks, p⟩

/-- The MAC under the encrypted counter block zero. -/
def ccmMask (ctx : CcmContext) (iv : List Byte) (mac : Block) : Option Block :=
  (ecbBlock ctx.aesSw (buildCtr0 iv)).map (Block.xor mac)

/-- The scratch buffers as a call leaves them. -/
def CcmContext.withScratch (ctx : CcmContext) (mac ctr ks : Buf) : CcmContext :=
  { ctx with scratchMac := some mac, scratchCtr := some ctr, scratchKs := some ks }

def mbedtlsCcmEncryptAndTag (ctx : CcmContext) (iv ad input output tag : List Byte) (p : Proc ω) :
    Option (AeadResult CcmContext ω) :=
  if ¬ ctx.admits iv.length ad.length input.length tag.length then some ⟨.ccmBadInput, output, tag, ctx, p⟩
  else
    let (hw, p) := useHw (ccmHwFdGet dev) ccmHwMinSize input.length p
    match ctx.scratchMac, ctx.scratchCtr, ctx.scratchKs with
    | some mac, some ctr, some ks =>
      let (m, mac, p) := ccmMacPass dev ctx hw iv ad input tag.length mac p
      match m with
      | none => some ⟨.hwAccelFailed, output, tag, ctx.withScratch mac ctr ks, p⟩
      | some m =>
        let c := ccmCtrPass dev ctx hw iv input output ctr ks p
        let ctx' := ctx.withScratch mac c.ctr c.ks
        if c.ok then
          match ccmMask ctx iv m with
          | none => some ⟨.hwAccelFailed, c.output, tag, ctx', c.proc⟩
          | some t => some ⟨.ok, c.output, t.toList.take tag.length, ctx', c.proc⟩
        else some ⟨.hwAccelFailed, c.output, tag, ctx', c.proc⟩
    | _, _, _ => none

def mbedtlsCcmAuthDecrypt (ctx : CcmContext) (iv ad input output tag : List Byte) (p : Proc ω) :
    Option (AeadResult CcmContext ω) :=
  if ¬ ctx.admits iv.length ad.length input.length tag.length then some ⟨.ccmBadInput, output, tag, ctx, p⟩
  else
    let (hw, p) := useHw (ccmHwFdGet dev) ccmHwMinSize input.length p
    match ctx.scratchMac, ctx.scratchCtr, ctx.scratchKs with
    | some mac, some ctr, some ks =>
      -- the plaintext is in the caller's buffer before anything is verified
      let c := ccmCtrPass dev ctx hw iv input output ctr ks p
      if c.ok then
        let (m, mac, p) := ccmMacPass dev ctx hw iv ad (c.output.take input.length) tag.length mac c.proc
        let ctx' := ctx.withScratch mac c.ctr c.ks
        match m with
        | none => some ⟨.hwAccelFailed, c.output, tag, ctx', p⟩
        | some m =>
          match ccmMask ctx iv m with
          | none => some ⟨.hwAccelFailed, c.output, tag, ctx', p⟩
          | some expected =>
            if tagDiff (expected.toList.take tag.length) tag ≠ 0#8 then
              some ⟨.ccmAuthFailed, overlay (zeros input.length) c.output, tag, ctx', p⟩
            else some ⟨.ok, c.output, tag, ctx', p⟩
      else some ⟨.hwAccelFailed, c.output, tag, ctx.withScratch mac c.ctr c.ks, c.proc⟩
    | _, _, _ => none

/-- The starred variants only turn an empty tag away. -/
def mbedtlsCcmStarEncryptAndTag (ctx : CcmContext) (iv ad input output tag : List Byte) (p : Proc ω) :
    Option (AeadResult CcmContext ω) :=
  if tag.length = 0 then some ⟨.ccmBadInput, output, tag, ctx, p⟩
  else mbedtlsCcmEncryptAndTag dev ctx iv ad input output tag p

def mbedtlsCcmStarAuthDecrypt (ctx : CcmContext) (iv ad input output tag : List Byte) (p : Proc ω) :
    Option (AeadResult CcmContext ω) :=
  if tag.length = 0 then some ⟨.ccmBadInput, output, tag, ctx, p⟩
  else mbedtlsCcmAuthDecrypt dev ctx iv ad input output tag p

end OneShot

end Thingino.Crypto
