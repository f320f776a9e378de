import Thingino.Crypto.Engine
import Thingino.Lib.Modes

/-! Software AES and the CBC entry point (`aes_alt.c`).

Blocks are enciphered in place on a 16-byte state with the S-box tables and the
expanded round keys `rk`; the array has room for 68 words and a shorter key
leaves stale words behind it. The context also keeps an AES-128 key packed for
the engine. `mbedtlsAesCryptCbc` sends requests of 32 bytes or more through
`/dev/aes` when the key is a 128-bit one and otherwise, or when the engine fails,
runs the software loop over the same buffers. -/
namespace Thingino.Crypto
open Lib

/-! ### Tables -/

def sbox : List Byte :=
  [0x63, 0x7c, 0x77, 0x7b, 0xf2, 0x6b, 0x6f, 0xc5, 0x30, 0x01, 0x67, 0x2b, 0xfe, 0xd7, 0xab, 0x76,
    0xca, 0x82, 0xc9, 0x7d, 0xfa, 0x59, 0x47, 0xf0, 0xad, 0xd4, 0xa2, 0xaf, 0x9c, 0xa4, 0x72, 0xc0,
    0xb7, 0xfd, 0x93, 0x26, 0x36, 0x3f, 0xf7, 0xcc, 0x34, 0xa5, 0xe5, 0xf1, 0x71, 0xd8, 0x31, 0x15,
    0x04, 0xc7, 0x23, 0xc3, 0x18, 0x96, 0x05, 0x9a, 0x07, 0x12, 0x80, 0xe2, 0xeb, 0x27, 0xb2, 0x75,
    0x09, 0x83, 0x2c, 0x1a, 0x1b, 0x6e, 0x5a, 0xa0, 0x52, 0x3b, 0xd6, 0xb3, 0x29, 0xe3, 0x2f, 0x84,
    0x53, 0xd1, 0x00, 0xed, 0x20, 0xfc, 0xb1, 0x5b, 0x6a, 0xcb, 0xbe, 0x39, 0x4a, 0x4c, 0x58, 0xcf,
    0xd0, 0xef, 0xaa, 0xfb, 0x43, 0x4d, 0x33, 0x85, 0x45, 0xf9, 0x02, 0x7f, 0x50, 0x3c, 0x9f, 0xa8,
    0x51, 0xa3, 0x40, 0x8f, 0x92, 0x9d, 0x38, 0xf5, 0xbc, 0xb6, 0xda, 0x21, 0x10, 0xff, 0xf3, 0xd2,
    0xcd, 0x0c, 0x13, 0xec, 0x5f, 0x97, 0x44, 0x17, 0xc4, 0xa7, 0x7e, 0x3d, 0x64, 0x5d, 0x19, 0x73,
    0x60, 0x81, 0x4f, 0xdc, 0x22, 0x2a, 0x90, 0x88, 0x46, 0xee, 0xb8, 0x14, 0xde, 0x5e, 0x0b, 0xdb,
    0xe0, 0x32, 0x3a, 0x0a, 0x49, 0x06, 0x24, 0x5c, 0xc2, 0xd3, 0xac, 0x62, 0x91, 0x95, 0xe4, 0x79,
    0xe7, 0xc8, 0x37, 0x6d, 0x8d, 0xd5, 0x4e, 0xa9, 0x6c, 0x56, 0xf4, 0xea, 0x65, 0x7a, 0xae, 0x08,
    0xba, 0x78, 0x25, 0x2e, 0x1c, 0xa6, 0xb4, 0xc6, 0xe8, 0xdd, 0x74, 0x1f, 0x4b, 0xbd, 0x8b, 0x8a,
    0x70, 0x3e, 0xb5, 0x66, 0x48, 0x03, 0xf6, 0x0e, 0x61, 0x35, 0x57, 0xb9, 0x86, 0xc1, 0x1d, 0x9e,
    0xe1, 0xf8, 0x98, 0x11, 0x69, 0xd9, 0x8e, 0x94, 0x9b, 0x1e, 0x87, 0xe9, 0xce, 0x55, 0x28, 0xdf,
    0x8c, 0xa1, 0x89, 0x0d, 0xbf, 0xe6, 0x42, 0x68, 0x41, 0x99, 0x2d, 0x0f, 0xb0, 0x54, 0xbb, 0x16]

def rsbox : List Byte :=
  [0x52, 0x09, 0x6a, 0xd5, 0x30, 0x36, 0xa5, 0x38, 0xbf, 0x40, 0xa3, 0x9e, 0x81, 0xf3, 0xd7, 0xfb,
    0x7c, 0xe3, 0x39, 0x82, 0x9b, 0x2f, 0xff, 0x87, 0x34, 0x8e, 0x43, 0x44, 0xc4, 0xde, 0xe9, 0xcb,
    0x54, 0x7b, 0x94, 0x32, 0xa6, 0xc2, 0x23, 0x3d, 0xee, 0x4c, 0x95, 0x0b, 0x42, 0xfa, 0xc3, 0x4e,
    0x08, 0x2e, 0xa1, 0x66, 0x28, 0xd9, 0x24, 0xb2, 0x76, 0x5b, 0xa2, 0x49, 0x6d, 0x8b, 0xd1, 0x25,
    0x72, 0xf8, 0xf6, 0x64, 0x86, 0x68, 0x98, 0x16, 0xd4, 0xa4, 0x5c, 0xcc, 0x5d, 0x65, 0xb6, 0x92,
    0x6c, 0x70, 0x48, 0x50, 0xfd, 0xed, 0xb9, 0xda, 0x5e, 0x15, 0x46, 0x57, 0xa7, 0x8d, 0x9d, 0x84,
    0x90, 0xd8, 0xab, 0x00, 0x8c, 0xbc, 0xd3, 0x0a, 0xf7, 0xe4, 0x58, 0x05, 0xb8, 0xb3, 0x45, 0x06,
    0xd0, 0x2c, 0x1e, 0x8f, 0xca, 0x3f, 0x0f, 0x02, 0xc1, 0xaf, 0xbd, 0x03, 0x01, 0x13, 0x8a, 0x6b,
    0x3a, 0x91, 0x11, 0x41, 0x4f, 0x67, 0xdc, 0xea, 0x97, 0xf2, 0xcf, 0xce, 0xf0, 0xb4, 0xe6, 0x73,
    0x96, 0xac, 0x74, 0x22, 0xe7, 0xad, 0x35, 0x85, 0xe2, 0xf9, 0x37, 0xe8, 0x1c, 0x75, 0xdf, 0x6e,
    0x47, 0xf1, 0x1a, 0x71, 0x1d, 0x29, 0xc5, 0x89, 0x6f, 0xb7, 0x62, 0x0e, 0xaa, 0x18, 0xbe, 0x1b,
    0xfc, 0x56, 0x3e, 0x4b, 0xc6, 0xd2, 0x79, 0x20, 0x9a, 0xdb, 0xc0, 0xfe, 0x78, 0xcd, 0x5a, 0xf4,
    0x1f, 0xdd, 0xa8, 0x33, 0x88, 0x07, 0xc7, 0x31, 0xb1, 0x12, 0x10, 0x59, 0x27, 0x80, 0xec, 0x5f,
    0x60, 0x51, 0x7f, 0xa9, 0x19, 0xb5, 0x4a, 0x0d, 0x2d, 0xe5, 0x7a, 0x9f, 0x93, 0xc9, 0x9c, 0xef,
    0xa0, 0xe0, 0x3b, 0x4d, 0xae, 0x2a, 0xf5, 0xb0, 0xc8, 0xeb, 0xbb, 0x3c, 0x83, 0x53, 0x99, 0x61,
    0x17, 0x2b, 0x04, 0x7e, 0xba, 0x77, 0xd6, 0x26, 0xe1, 0x69, 0x14, 0x63, 0x55, 0x21, 0x0c, 0x7d]

def rcon : List Byte := [0x00, 0x01, 0x02, 0x04, 0x08, 0x10, 0x20, 0x40, 0x80, 0x1b, 0x36]

/-- `sbox[x]`. -/
def subByte (x : Byte) : Byte := sbox.getD x.toNat 0#8

/-- `rsbox[x]`. -/
def invSubByte (x : Byte) : Byte := rsbox.getD x.toNat 0#8

/-! ### Key expansion -/

def subWord (w : Word) : Word :=
  ((subByte ((w >>> 24).setWidth 8)).setWidth 32 <<< 24) |||
    ((subByte ((w >>> 16).setWidth 8)).setWidth 32 <<< 16) |||
    ((subByte ((w >>> 8).setWidth 8)).setWidth 32 <<< 8) |||
    (subByte (w.setWidth 8)).setWidth 32

def rotWord (w : Word) : Word := (w <<< 8) ||| (w >>> 24)

/-- Word `i` of the schedule, from the words before it. -/
def expandWord (nk : Nat) (rk : Vector Word 68) (i : Nat) : Word :=
  let tmp := rk.getD (i - 1) 0#32
  let tmp :=
    if i % nk = 0 then subWord (rotWord tmp) ^^^ ((rcon.getD (i / nk) 0#8).setWidth 32 <<< 24)
    else if 6 < nk ∧ i % nk = 4 then subWord tmp
    else tmp
  rk.getD (i - nk) 0#32 ^^^ tmp

/-- The round keys written over `rk`, for a key of 128, 192 or 256 bits. -/
def swKeyExpand (rk : Vector Word 68) (key : Nat → Byte) (keybits : Nat) : Vector Word 68 :=
  let nk := keybits / 32
  let nr := nk + 6
  let total := 4 * (nr + 1)
  let rk := (List.range nk).foldl (fun rk i => rk.setIfInBounds i (load32Be fun j => key (4 * i + j))) rk
  (List.range' nk (total - nk)).foldl (fun rk i => rk.setIfInBounds i (expandWord nk rk i)) rk

/-! ### The cipher -/

/-- Multiplication by `x` in the field of 2⁸ elements. -/
def xtime (x : Byte) : Byte := (x <<< 1) ^^^ (if x.getLsbD 7 then 0x1b#8 else 0#8)

/-- One round of the shift-and-add loop of `gmul`. -/
def gmulStep (s : Byte × Byte × Byte) : Byte × Byte × Byte :=
  let (p, a, b) := s
  (if b.getLsbD 0 then p ^^^ a else p, if a.getLsbD 7 then (a <<< 1) ^^^ 0x1b#8 else a <<< 1, b >>> 1)

def gmul (a b : Byte) : Byte := ((List.range 8).foldl (fun s _ => gmulStep s) (0#8, a, b)).1

/-- The four round-key words of `round` added to the state, most significant byte first. -/
def addRoundKey (rk : Vector Word 68) (round : Nat) (s : Block) : Block :=
  Vector.ofFn fun i => s[i] ^^^ (rk.getD (round * 4 + i.val / 4) 0#32 >>> (24 - 8 * (i.val % 4))).setWidth 8

def shiftRows (t : Block) : Block :=
  #v[t.get 0, t.get 5, t.get 10, t.get 15, t.get 4, t.get 9, t.get 14, t.get 3,
    t.get 8, t.get 13, t.get 2, t.get 7, t.get 12, t.get 1, t.get 6, t.get 11]

def invShiftRows (s : Block) : Block :=
  #v[s.get 0, s.get 13, s.get 10, s.get 7, s.get 4, s.get 1, s.get 14, s.get 11,
    s.get 8, s.get 5, s.get 2, s.get 15, s.get 12, s.get 9, s.get 6, s.get 3]

def mixColumn (a b c d : Byte) : Vector Byte 4 :=
  #v[xtime a ^^^ xtime b ^^^ b ^^^ c ^^^ d,
    a ^^^ xtime b ^^^ xtime c ^^^ c ^^^ d,
    a ^^^ b ^^^ xtime c ^^^ xtime d ^^^ d,
    xtime a ^^^ a ^^^ b ^^^ c ^^^ xtime d]

def invMixColumn (a b c d : Byte) : Vector Byte 4 :=
  #v[gmul a 14#8 ^^^ gmul b 11#8 ^^^ gmul c 13#8 ^^^ gmul d 9#8,
    gmul a 9#8 ^^^ gmul b 14#8 ^^^ gmul c 11#8 ^^^ gmul d 13#8,
    gmul a 13#8 ^^^ gmul b 9#8 ^^^ gmul c 14#8 ^^^ gmul d 11#8,
    gmul a 11#8 ^^^ gmul b 13#8 ^^^ gmul c 9#8 ^^^ gmul d 14#8]

/-- The loop over the four columns of the state. -/
def eachColumn (f : Byte → Byte → Byte → Byte → Vector Byte 4) (s : Block) : Block :=
  Vector.ofFn fun ⟨i, _⟩ =>
    (f s[4 * (i / 4)] s[4 * (i / 4) + 1] s[4 * (i / 4) + 2] s[4 * (i / 4) + 3])[i % 4]

theorem getElem_eachColumn (f : Byte → Byte → Byte → Byte → Vector Byte 4) (s : Block) (i : Nat) (h : i < 16) :
    (eachColumn f s)[i] =
      (f s[4 * (i / 4)] s[4 * (i / 4) + 1] s[4 * (i / 4) + 2] s[4 * (i / 4) + 3])[i % 4] := by
  simp [eachColumn]

def encryptRound (rk : Vector Word 68) (nr round : Nat) (s : Block) : Block :=
  let s := shiftRows (s.map subByte)
  -- MixColumns is skipped on the final round
  let s := if round < nr then eachColumn mixColumn s else s
  addRoundKey rk round s

/-- The state after `k` rounds. -/
def encryptRounds (rk : Vector Word 68) (nr : Nat) (s : Block) : Nat → Block
  | 0 => addRoundKey rk 0 s
  | k + 1 => encryptRound rk nr (k + 1) (encryptRounds rk nr s k)

def swEncryptBlock (rk : Vector Word 68) (nr : Nat) (b : Block) : Block := encryptRounds rk nr b nr

def decryptRound (rk : Vector Word 68) (round : Nat) (s : Block) : Block :=
  let s := addRoundKey rk round ((invShiftRows s).map invSubByte)
  -- InvMixColumns is skipped on round 0
  if 0 < round then eachColumn invMixColumn s else s

/-- Rounds `k - 1` down to `0`. -/
def decryptRounds (rk : Vector Word 68) : Nat → Block → Block
  | 0, s => s
  | k + 1, s => decryptRounds rk k (decryptRound rk k s)

def swDecryptBlock (rk : Vector Word 68) (nr : Nat) (b : Block) : Block :=
  decryptRounds rk nr (addRoundKey rk nr b)

/-! ### The context -/

structure AesContext where
  nr : Nat
  rk : Vector Word 68
  hwKey : Vector Word 4
  keybits : Nat
  hasHw : Bool

def mbedtlsAesInit : AesContext := ⟨0, Vector.replicate 68 0#32, Vector.replicate 4 0#32, 0, false⟩

def mbedtlsAesSetkeyEnc (ctx : AesContext) (key : Nat → Byte) (keybits : Nat) : Status × AesContext :=
  if keybits ≠ 128 ∧ keybits ≠ 192 ∧ keybits ≠ 256 then (.aesInvalidKeyLength, ctx)
  else
    let ctx := { ctx with
      keybits := keybits
      nr := keybits / 32 + 6
      rk := swKeyExpand ctx.rk key keybits }
    -- Only AES-128 goes to the engine
    if keybits = 128 then
      (.ok, { ctx with
        hwKey := #v[load32Be key, load32Be fun j => key (4 + j), load32Be fun j => key (8 + j),
          load32Be fun j => key (12 + j)]
        hasHw := true })
    else (.ok, { ctx with hasHw := false })

/-- The same expansion: the direction is chosen when a block is processed. -/
def mbedtlsAesSetkeyDec (ctx : AesContext) (key : Nat → Byte) (keybits : Nat) : Status × AesContext :=
  mbedtlsAesSetkeyEnc ctx key keybits

/-- `MBEDTLS_AES_ENCRYPT` and `MBEDTLS_AES_DECRYPT`. -/
inductive Direction where
  | encrypt | decrypt
deriving DecidableEq, Repr

/-- One block, always in software. -/
def mbedtlsAesCryptEcb (ctx : AesContext) (mode : Direction) (b : Block) : Status × Block :=
  match mode with
  | .encrypt => (.ok, swEncryptBlock ctx.rk ctx.nr b)
  | .decrypt => (.ok, swDecryptBlock ctx.rk ctx.nr b)

/-! ### CBC -/

/-- Bytes stored at the front of a buffer. -/
def overlay (bytes out : List Byte) : List Byte := bytes ++ out.drop bytes.length

/-- What a CBC call leaves: its return value, the vector, the output buffer, the process. -/
structure CbcResult (ω : Type) where
  ret : Status
  iv : Block
  output : List Byte
  proc : Proc ω

section Cbc
variable {ω : Type} (dev : Device ω)

/-- The request of `hw_cbc`. The driver is left to take 128 key bits: `keybits` stays zero. -/
def cbcRequest (hwKey : Vector Word 4) (iv : Block) (mode : Direction) (input : List Byte) : JzAesPara :=
  { enworkmode := match mode with | .encrypt => .encCbc | .decrypt => .decCbc
    aeskey := Vector.ofFn fun i => if h : i.val < 4 then hwKey[i.val] else 0#32
    aesiv := Vector.ofFn fun i => load32Be fun j => iv.toList.getD (4 * i.val + j) 0#8
    src := input
    datalen := BitVec.ofNat 32 input.length
    keybits := 0
    flags := aesFlagBswap }

/-- CBC through the engine. On success the vector is the last ciphertext block. -/
def hwCbc (hwKey : Vector Word 4) (iv : Block) (mode : Direction) (input output : List Byte)
    (p : Proc ω) : CbcResult ω :=
  let (fd, p) := hwGetFd dev p
  if fd < 0 then ⟨.failed, iv, output, p⟩
  else
    let req := cbcRequest hwKey iv mode input
    let (r, w) := dev.ioctl p.world req
    let p := { p with world := w }
    let output := overlay (moved r req) output
    if done r input.length then
      match mode with
      | .encrypt => ⟨.ok, Block.ofList (output.drop (input.length - 16)), output, p⟩
      | .decrypt => ⟨.ok, Block.ofList (input.drop (input.length - 16)), output, p⟩
    else ⟨.failed, iv, output, p⟩

/-- The software encryption loop over `n` blocks: what it stores, and the vector it leaves. -/
def cbcEncryptLoop (ctx : AesContext) : Nat → Block → List Byte → List Byte × Block
  | 0, iv, _ => ([], iv)
  | n + 1, iv, input =>
    let c := swEncryptBlock ctx.rk ctx.nr (Block.xor (Block.ofList input) iv)
    let (rest, iv') := cbcEncryptLoop ctx n c (input.drop 16)
    (c.toList ++ rest, iv')

def cbcDecryptLoop (ctx : AesContext) : Nat → Block → List Byte → List Byte × Block
  | 0, iv, _ => ([], iv)
  | n + 1, iv, input =>
    let tmp := Block.ofList input
    let (rest, iv') := cbcDecryptLoop ctx n tmp (input.drop 16)
    ((Block.xor (swDecryptBlock ctx.rk ctx.nr tmp) iv).toList ++ rest, iv')

def swCbc (ctx : AesContext) (mode : Direction) (iv : Block) (input : List Byte) : List Byte × Block :=
  match mode with
  | .encrypt => cbcEncryptLoop ctx (input.length / 16) iv input
  | .decrypt => cbcDecryptLoop ctx (input.length / 16) iv input

/-- `mbedtls_aes_crypt_cbc`, with `output` the caller's buffer, apart from `input`. -/
def mbedtlsAesCryptCbc (ctx : AesContext) (mode : Direction) (iv : Block) (input output : List Byte)
    (p : Proc ω) : CbcResult ω :=
  if input.length % 16 ≠ 0 then ⟨.aesInvalidInputLength, iv, output, p⟩
  else if input.length = 0 then ⟨.ok, iv, output, p⟩
  else
    let hw : CbcResult ω :=
      if ctx.hasHw ∧ 32 ≤ input.length then
        let savedIv := Block.ofList (input.drop (input.length - 16))
        let r := hwCbc dev ctx.hwKey iv mode input output p
        if r.ret = .ok ∧ mode = .decrypt then { r with iv := savedIv } else r
      else ⟨.failed, iv, output, p⟩
    if hw.ret = .ok then hw
    else
      -- the engine was not used or failed: everything again in software
      let (bytes, iv') := swCbc ctx mode hw.iv input
      ⟨.ok, iv', overlay bytes hw.output, hw.proc⟩

end Cbc

end Thingino.Crypto
