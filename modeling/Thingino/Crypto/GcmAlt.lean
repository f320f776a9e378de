import Thingino.Crypto.AesAlt

/-! `gcm_alt.c`: Galois/Counter Mode over the engine.

The counter stream of a record of at least 512 bytes goes to the engine in one
request, a shorter one through the software cipher; the hash is always software,
four bits at a time from the tables `HL` and `HH`. The scratch buffers live in
the context and are reused; a function that would follow a null one has no value
(`none`). Statistics and log lines are left out. -/
namespace Thingino.Crypto
open Lib

/-! ### Bulk ECB, as `gcm_alt.c` and `ccm_alt.c` both write it -/

section EcbBulk
variable {ω : Type} (dev : Device ω)

def ecbRequest (key : Vector Word 8) (keybits : Nat) (src : List Byte) : JzAesPara :=
  { enworkmode := .encEcb
    aeskey := requestKey key keybits
    aesiv := Vector.replicate 4 0#32
    src := src
    datalen := BitVec.ofNat 32 src.length
    keybits := keybits
    flags := aesFlagBswap }

/-- `n` blocks through the engine. A failed request may have left anything at `out`. -/
def hwEcbBulk (key : Vector Word 8) (keybits : Nat) (inp : Buf) (n : Nat) (out : Buf) (p : Proc ω) :
    Status × Buf × Proc ω :=
  if n = 0 then (.ok, out, p)
  else
    let req := ecbRequest key keybits (inp.read 0 (n * 16))
    let (r, w) := dev.ioctl p.world req
    (if done r (n * 16) then .ok else .failed, out.write 0 (moved r req), { p with world := w })

/-- The first `n` blocks one by one. -/
def swEcbBulk (aes : AesContext) (inp : Buf) (out : Buf) : Nat → Status × Buf
  | 0 => (.ok, out)
  | n + 1 =>
    match swEcbBulk aes inp out n with
    | (.ok, out) =>
      let (ret, b) := mbedtlsAesCryptEcb aes .encrypt (Block.ofList (inp.read (n * 16) 16))
      (ret, out.write (n * 16) b.toList)
    | failure => failure

/-- `use_hw = length >= MIN_SIZE && fd_get() >= 0`: short records do not open the device. -/
def useHw (fdGet : Proc ω → Int × Proc ω) (minSize length : Nat) (p : Proc ω) : Bool × Proc ω :=
  if minSize ≤ length then
    let (fd, p) := fdGet p
    (decide (0 ≤ fd), p)
  else (false, p)

/-- The keystream on the side that `hw` says. -/
def ecbBulk (hw : Bool) (hwKey : Vector Word 8) (keybits : Nat) (aes : AesContext) (inp : Buf) (n : Nat)
    (out : Buf) (p : Proc ω) : Status × Buf × Proc ω :=
  if hw then hwEcbBulk dev hwKey keybits inp n out p
  else
    let (ret, out) := swEcbBulk aes inp out n
    (ret, out, p)

end EcbBulk

/-! ### The context -/

/-- `MBEDTLS_GCM_ALT_SCRATCH_SIZE`. -/
def gcmScratchSize : Nat := 16 * 1024 + 64

/-- `GCM_ALT_HW_MIN_SIZE`. -/
def gcmHwMinSize : Nat := 512

structure GcmContext where
  aesSw : AesContext
  hwKey : Vector Word 8
  keybits : Nat
  haveKey : Bool
  H : Block
  HL : Vector (BitVec 64) 16
  HH : Vector (BitVec 64) 16
  haveTable : Bool
  scratchCtr : Option Buf
  scratchKs : Option Buf

/-! ### The hash -/

def gcmLast4 : List (BitVec 16) :=
  [0x0000#16, 0x1c20#16, 0x3840#16, 0x2460#16, 0x7080#16, 0x6ca0#16, 0x48c0#16, 0x54e0#16,
    0xe100#16, 0xfd20#16, 0xd940#16, 0xc560#16, 0x9180#16, 0x8da0#16, 0xa9c0#16, 0xb5e0#16]

def load64Be (b : Nat → Byte) : BitVec 64 :=
  ((b 0).setWidth 64 <<< 56) ||| ((b 1).setWidth 64 <<< 48) ||| ((b 2).setWidth 64 <<< 40) |||
    ((b 3).setWidth 64 <<< 32) ||| ((b 4).setWidth 64 <<< 24) ||| ((b 5).setWidth 64 <<< 16) |||
    ((b 6).setWidth 64 <<< 8) ||| (b 7).setWidth 64

def store64Be (v : BitVec 64) : List Byte :=
  [(v >>> 56).setWidth 8, (v >>> 48).setWidth 8, (v >>> 40).setWidth 8, (v >>> 32).setWidth 8,
    (v >>> 24).setWidth 8, (v >>> 16).setWidth 8, (v >>> 8).setWidth 8, v.setWidth 8]

/-- The same bytes under another name, for the length block. -/
def putBe64 (v : BitVec 64) : List Byte := store64Be v

/-- One table entry: `ctx->HL[i] = vl; ctx->HH[i] = vh`. -/
def GcmContext.setEntry (ctx : GcmContext) (i : Nat) (vh vl : BitVec 64) : GcmContext :=
  { ctx with HL := ctx.HL.setIfInBounds i vl, HH := ctx.HH.setIfInBounds i vh }

/-- One turn of the first loop of `gcm_gen_table`. -/
def genTableStep (s : GcmContext × BitVec 64 × BitVec 64) (i : Nat) : GcmContext × BitVec 64 × BitVec 64 :=
  let (ctx, vh, vl) := s
  let t : BitVec 32 := (vl &&& 1#64).setWidth 32 * 0xe1000000#32
  let vl := (vh <<< 63) ||| (vl >>> 1)
  let vh' := (vh >>> 1) ^^^ (t.setWidth 64 <<< 32)
  (ctx.setEntry i vh' vl, vh', vl)

/-- One turn of the inner loop that fills the other entries. -/
def fillEntry (i : Nat) (ctx : GcmContext) (j : Nat) : GcmContext :=
  ctx.setEntry (i + j) (ctx.HH.getD i 0#64 ^^^ ctx.HH.getD j 0#64) (ctx.HL.getD i 0#64 ^^^ ctx.HL.getD j 0#64)

def gcmGenTable (ctx : GcmContext) : GcmContext :=
  let vh := load64Be fun j => ctx.H.toList.getD j 0#8
  let vl := load64Be fun j => ctx.H.toList.getD (8 + j) 0#8
  let ctx := (ctx.setEntry 0 0#64 0#64).setEntry 8 vh vl
  let (ctx, _, _) := [4, 2, 1].foldl genTableStep (ctx, vh, vl)
  let ctx := [2, 4, 8].foldl (fun ctx i => (List.range' 1 (i - 1)).foldl (fillEntry i) ctx) ctx
  { ctx with haveTable := true }

/-- Four bits to the right, the bits that fall off folded back, one entry added. -/
def multNibble (ctx : GcmContext) (z : BitVec 64 × BitVec 64) (nibble : Nat) : BitVec 64 × BitVec 64 :=
  let (zh, zl) := z
  let rem := (zl &&& 0x0F#64).toNat
  let zl := (zh <<< 60) ||| (zl >>> 4)
  let zh := (zh >>> 4) ^^^ ((gcmLast4.getD rem 0#16).setWidth 64 <<< 48)
  (zh ^^^ ctx.HH.getD nibble 0#64, zl ^^^ ctx.HL.getD nibble 0#64)

def multByte (ctx : GcmContext) (x : Block) (z : BitVec 64 × BitVec 64) (i : Nat) : BitVec 64 × BitVec 64 :=
  let byte := x.getD i 0#8
  let lo := (byte &&& 0x0F#8).toNat
  let hi := ((byte >>> 4) &&& 0x0F#8).toNat
  -- the last byte's low nibble is where `z` starts
  let z := if i ≠ 15 then multNibble ctx z lo else z
  multNibble ctx z hi

def gcmMult (ctx : GcmContext) (x : Block) : Block :=
  let lo := (x.getD 15 0#8 &&& 0x0F#8).toNat
  let (zh, zl) := (List.range 16).reverse.foldl (multByte ctx x) (ctx.HH.getD lo 0#64, ctx.HL.getD lo 0#64)
  Block.ofList (store64Be zh ++ store64Be zl)

def ghashUpdate (ctx : GcmContext) (Y : Block) (data : List Byte) : Block :=
  let full := data.length / 16
  let Y := (List.range full).foldl
    (fun Y k => gcmMult ctx (Block.xor Y (Block.ofList (data.drop (16 * k))))) Y
  -- a short last block is copied over zeros
  if 16 * full < data.length then gcmMult ctx (Block.xor Y (Block.ofList (data.drop (16 * full)))) else Y

/-! ### Counters -/

/-- The first `n` counter blocks after `J0`, and the counter they end at. -/
def gcmBuildCtrBlocks (ctr : Buf) (J0 : Block) : Nat → Buf × Word
  | 0 => (ctr, load32Be fun j => J0.toList.getD (12 + j) 0#8)
  | n + 1 =>
    let (ctr, c) := gcmBuildCtrBlocks ctr J0 n
    let c := c + 1#32
    ((ctr.write (n * 16) (J0.toList.take 12)).write (n * 16 + 12)
      [(c >>> 24).setWidth 8, (c >>> 16).setWidth 8, (c >>> 8).setWidth 8, c.setWidth 8], c)

def gcmDeriveJ0 (ctx : GcmContext) (iv : List Byte) : Block :=
  if iv.length = 12 then Block.ofList (iv ++ [0#8, 0#8, 0#8, 1#8])
  else
    let Y := ghashUpdate ctx Block.zero iv
    ghashUpdate ctx Y (zeros 8 ++ putBe64 (BitVec.ofNat 64 iv.length * 8#64))

/-! ### One-shot calls -/

/-- What a call leaves: its return value, the output and the tag buffer, the context, the process. -/
structure AeadResult (κ ω : Type) where
  ret : Status
  output : List Byte
  tag : List Byte
  ctx : κ
  proc : Proc ω

section OneShot
variable {ω : Type} (dev : Device ω)

/-- The record under the keystream. The output is written only after the keystream is there. -/
def gcmCryptInternal (ctx : GcmContext) (iv input output : List Byte) (p : Proc ω) :
    Option (Status × List Byte × GcmContext × Proc ω) :=
  if input.length = 0 then some (.ok, output, ctx, p)
  else if gcmScratchSize < input.length then some (.failed, output, ctx, p)
  else
    let J0 := gcmDeriveJ0 ctx iv
    let (hw, p) := useHw (gcmHwFdGet dev) gcmHwMinSize input.length p
    let nCtr := (input.length + 15) / 16
    match ctx.scratchCtr, ctx.scratchKs with
    | some ctr, some ks =>
      let (ctr, _) := gcmBuildCtrBlocks ctr J0 nCtr
      let (ret, ks, p) := ecbBulk dev hw ctx.hwKey ctx.keybits ctx.aesSw ctr nCtr ks p
      let ctx := { ctx with scratchCtr := some ctr, scratchKs := some ks }
      if ret = .ok then some (.ok, overlay (xorBytes input (ks.read 0 input.length)) output, ctx, p)
      else some (.failed, output, ctx, p)
    | _, _ => none

def gcmComputeTag (ctx : GcmContext) (iv ad ct : List Byte) : Status × Block :=
  let J0 := gcmDeriveJ0 ctx iv
  let S := ghashUpdate ctx Block.zero ad
  let S := ghashUpdate ctx S ct
  let S := ghashUpdate ctx S (putBe64 (BitVec.ofNat 64 ad.length * 8#64) ++ putBe64 (BitVec.ofNat 64 ct.length * 8#64))
  let (ret, ek) := mbedtlsAesCryptEcb ctx.aesSw .encrypt J0
  (ret, Block.xor S ek)

def mbedtlsGcmInit : GcmContext :=
  { aesSw := mbedtlsAesInit
    hwKey := Vector.replicate 8 0#32
    keybits := 0
    haveKey := false
    H := Block.zero
    HL := Vector.replicate 16 0#64
    HH := Vector.replicate 16 0#64
    haveTable := false
    scratchCtr := none
    scratchKs := none }

/-- `if (!p) p = malloc(size)`. -/
def mallocUnless (p : Option Buf) (size : Nat) (q : Proc ω) : Option Buf × Proc ω :=
  match p with
  | some b => (some b, q)
  | none =>
    let (b, w) := dev.malloc q.world size
    (b, { q with world := w })

/-- The first half of `mbedtls_gcm_setkey`: everything that is derived from the key. -/
def gcmLoadKey (ctx : GcmContext) (key : Nat → Byte) (keybits nwords : Nat) : Status × GcmContext :=
  let ctx := { ctx with hwKey := packKey key nwords ctx.hwKey }
  match mbedtlsAesSetkeyEnc ctx.aesSw key keybits with
  | (.ok, aes) =>
    let ctx := { ctx with aesSw := aes }
    match mbedtlsAesCryptEcb ctx.aesSw .encrypt Block.zero with
    | (.ok, H) => (.ok, gcmGenTable { ctx with H := H })
    | (ret, H) => (ret, { ctx with H := H })
  | (ret, aes) => (ret, { ctx with aesSw := aes })

/-- The second half: the scratch buffers, both or none. -/
def gcmAllocScratch (ctx : GcmContext) (keybits : Nat) (p : Proc ω) : Status × GcmContext × Proc ω :=
  let (scratchCtr, p) := mallocUnless dev ctx.scratchCtr gcmScratchSize p
  let (scratchKs, p) := mallocUnless dev ctx.scratchKs gcmScratchSize p
  if scratchCtr.isNone ∨ scratchKs.isNone then
    (.hwAccelFailed, { ctx with scratchCtr := none, scratchKs := none }, p)
  else
    (.ok, { ctx with
      scratchCtr := scratchCtr, scratchKs := scratchKs, keybits := keybits, haveKey := true }, p)

def mbedtlsGcmSetkey (ctx : GcmContext) (cipher : CipherId) (key : Nat → Byte) (keybits : Nat) (p : Proc ω) :
    Status × GcmContext × Proc ω :=
  if cipher ≠ .aes then (.gcmBadInput, ctx, p)
  else
    match keybitsToNwords keybits with
    | none => (.gcmBadInput, ctx, p)
    | some nwords =>
      match gcmLoadKey ctx key keybits nwords with
      | (.ok, ctx) => gcmAllocScratch dev ctx keybits p
      | (ret, ctx) => (ret, ctx, p)

/-- `MBEDTLS_GCM_ENCRYPT`, `MBEDTLS_GCM_DECRYPT`, or any other integer. -/
inductive GcmMode where
  | encrypt | decrypt | other
deriving DecidableEq, Repr

def mbedtlsGcmCryptAndTag (ctx : GcmContext) (mode : GcmMode) (iv add input output tag : List Byte)
    (p : Proc ω) : Option (AeadResult GcmContext ω) :=
  if ctx.haveKey = false then some ⟨.gcmBadInput, output, tag, ctx, p⟩
  else if iv.length = 0 then some ⟨.gcmBadInput, output, tag, ctx, p⟩
  else if 16 < tag.length ∨ tag.length = 0 then some ⟨.gcmBadInput, output, tag, ctx, p⟩
  else
    match mode with
    | .encrypt => do
      let (ret, output, ctx, p) ← gcmCryptInternal dev ctx iv input output p
      if ret ≠ .ok then return ⟨.gcmBadInput, output, tag, ctx, p⟩
      let (ret, fullTag) := gcmComputeTag ctx iv add (output.take input.length)
      if ret ≠ .ok then return ⟨.gcmBadInput, output, tag, ctx, p⟩
      return ⟨.ok, output, fullTag.toList.take tag.length, ctx, p⟩
    | .decrypt => do
      -- the hash is over the received ciphertext, not the plaintext
      let (ret, fullTag) := gcmComputeTag ctx iv add input
      if ret ≠ .ok then return ⟨.gcmBadInput, output, tag, ctx, p⟩
      let (ret, output, ctx, p) ← gcmCryptInternal dev ctx iv input output p
      if ret ≠ .ok then return ⟨.gcmBadInput, output, tag, ctx, p⟩
      return ⟨.ok, output, fullTag.toList.take tag.length, ctx, p⟩
    | .other => some ⟨.gcmBadInput, output, tag, ctx, p⟩

/-- `diff |= expected[i] ^ tag[i]`, over the bytes of the tag. -/
def tagDiff (expected tag : List Byte) : Byte := (xorBytes expected tag).foldl (· ||| ·) 0#8

def mbedtlsGcmAuthDecrypt (ctx : GcmContext) (iv add tag input output : List Byte) (p : Proc ω) :
    Option (AeadResult GcmContext ω) :=
  if ctx.haveKey = false then some ⟨.gcmBadInput, output, tag, ctx, p⟩
  else if 16 < tag.length ∨ tag.length = 0 then some ⟨.gcmBadInput, output, tag, ctx, p⟩
  else do
    let (ret, expected) := gcmComputeTag ctx iv add input
    if ret ≠ .ok then return ⟨.gcmBadInput, output, tag, ctx, p⟩
    if tagDiff expected.toList tag ≠ 0#8 then
      return ⟨.gcmAuthFailed, overlay (zeros input.length) output, tag, ctx, p⟩
    let (ret, output, ctx, p) ← gcmCryptInternal dev ctx iv input output p
    if ret ≠ .ok then return ⟨.gcmBadInput, output, tag, ctx, p⟩
    return ⟨.ok, output, tag, ctx, p⟩

end OneShot

end Thingino.Crypto
