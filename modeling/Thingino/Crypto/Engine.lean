import Mathlib.Tactic.IntervalCases
import Thingino.Lib.Bytes

/-! The `/dev/aes` engine as the three ALT sources drive it.

`aes_alt.c`, `ccm_alt.c` and `gcm_alt.c` each keep a cached descriptor and pass
one `struct jz_aes_para` per `IOCTL_AES_DO`. The kernel driver is not part of the
repository, so what it and the allocator do is a parameter: a `Device` maps any
state of the outside world and any request to any result. A failing or short
request may have left any bytes at the destination. Nothing is assumed of a
device here; the results that need a working engine say what they need. -/
namespace Thingino.Crypto
open Lib

abbrev Word := BitVec 32

/-- What the functions return: `0`, a bare `-1`, or one of the mbedTLS codes. -/
inductive Status where
  | ok
  | failed
  | aesInvalidKeyLength
  | aesInvalidInputLength
  | gcmBadInput
  | gcmAuthFailed
  | ccmBadInput
  | ccmAuthFailed
  | hwAccelFailed
deriving DecidableEq, Repr

/-- `mbedtls_cipher_id_t`. -/
inductive CipherId where
  | none | null | aes | des | tripleDes | camellia | aria | chacha20
deriving DecidableEq, Repr

/-- `enworkmode`. -/
inductive WorkMode where
  | encEcb | decEcb | encCbc | decCbc
deriving DecidableEq, Repr

/-- `AES_FLAG_BSWAP`. -/
def aesFlagBswap : Nat := 1

/-- `struct jz_aes_para` on the way in. `src` is what the pointer shows;
`datalen` is the request's own 32-bit length. -/
structure JzAesPara where
  enworkmode : WorkMode
  aeskey : Vector Word 8
  aesiv : Vector Word 4
  src : List Byte
  datalen : BitVec 32
  keybits : Nat
  flags : Nat

/-- The ioctl's return value, the bytes it left at `dst` and `donelen`. -/
structure IoctlResult where
  ret : Int
  dst : List Byte
  donelen : BitVec 32

/-- The outside world: `open("/dev/aes")`, the ioctl and `malloc`. -/
structure Device (ω : Type) where
  openAes : ω → Int × ω
  ioctl : ω → JzAesPara → IoctlResult × ω
  malloc : ω → Nat → Option Buf × ω

/-- One source file's process state: its cached descriptor and the world. -/
structure Proc (ω : Type) where
  fd : Int
  world : ω

variable {ω : Type} (dev : Device ω)

/-- The descriptor, opened once: `-1` not tried, `-2` tried and failed. -/
def hwFdGet (p : Proc ω) : Int × Proc ω :=
  if 0 ≤ p.fd then (p.fd, p)
  else if p.fd = -2 then (-1, p)
  else
    let (fd, w) := dev.openAes p.world
    if fd < 0 then (-1, ⟨-2, w⟩) else (fd, ⟨fd, w⟩)

def hwGetFd (p : Proc ω) : Int × Proc ω := hwFdGet dev p
def gcmHwFdGet (p : Proc ω) : Int × Proc ω := hwFdGet dev p
def ccmHwFdGet (p : Proc ω) : Int × Proc ω := hwFdGet dev p

/-- The engine can be reached from here. -/
def available (p : Proc ω) : Prop := 0 ≤ (hwFdGet dev p).1

instance (p : Proc ω) : Decidable (available dev p) := inferInstanceAs (Decidable (_ ≤ _))

/-- The bytes a request moves. -/
def moved (r : IoctlResult) (p : JzAesPara) : List Byte := r.dst.take p.datalen.toNat

/-- `ioctl(...) < 0 || p.donelen != len` is false. -/
def done (r : IoctlResult) (len : Nat) : Prop := 0 ≤ r.ret ∧ r.donelen.toNat = len

instance (r : IoctlResult) (len : Nat) : Decidable (done r len) :=
  inferInstanceAs (Decidable (_ ∧ _))

/-! ### Byte order and key packing -/

/-- Four bytes at a pointer as a big-endian word. -/
def load32Be (b : Nat → Byte) : Word :=
  ((b 0).setWidth 32 <<< 24) ||| ((b 1).setWidth 32 <<< 16) ||| ((b 2).setWidth 32 <<< 8) |||
    (b 3).setWidth 32

/-- A byte moved up by whole bytes. -/
theorem getLsbD_placed {w : Nat} (x : Byte) (m q r : Nat) (hq : 8 * q + r < w) (hr : r < 8) :
    (x.setWidth w <<< (8 * m)).getLsbD (8 * q + r) = (decide (q = m) && x.getLsbD r) := by
  rw [BitVec.getLsbD_shiftLeft, BitVec.getLsbD_setWidth]
  by_cases h : q = m
  · subst h
    simp [hq, show r < w by omega]
  · by_cases hlt : q < m
    · simp [h, show 8 * q + r < 8 * m by omega]
    · simp [h, BitVec.getLsbD_of_ge x (8 * q + r - 8 * m) (by omega)]

theorem getLsbD_load32Be (b : Nat → Byte) (q r : Nat) (hq : q < 4) (hr : r < 8) :
    (load32Be b).getLsbD (8 * q + r) = (b (3 - q)).getLsbD r := by
  have h (x : Byte) (m : Nat) := getLsbD_placed (w := 32) x m q r (by omega) hr
  have h0 := h (b 3) 0
  rw [Nat.mul_zero, BitVec.shiftLeft_zero] at h0
  simp only [load32Be, BitVec.getLsbD_or, h0, h _ 1, h _ 2, h _ 3]
  interval_cases q <;> simp

/-- The number of key words, for the key sizes AES has. -/
def keybitsToNwords (keybits : Nat) : Option Nat :=
  if keybits = 128 then some 4
  else if keybits = 192 then some 6
  else if keybits = 256 then some 8
  else none

/-- The key as big-endian words; words past the key keep what they held. -/
def packKey (key : Nat → Byte) (nwords : Nat) (out : Vector Word 8) : Vector Word 8 :=
  (List.range nwords).foldl (fun o i => o.setIfInBounds i (load32Be fun j => key (i * 4 + j))) out

/-- The words `memcpy(p.aeskey, key, keybits / 8)` leaves in a zeroed request. -/
def requestKey (key : Vector Word 8) (keybits : Nat) : Vector Word 8 :=
  Vector.ofFn fun i => if i.val < keybits / 32 then key[i] else 0#32

theorem keybitsToNwords_some {keybits n : Nat} (h : keybitsToNwords keybits = some n) :
    (keybits = 128 ∨ keybits = 192 ∨ keybits = 256) ∧ n = keybits / 32 := by
  unfold keybitsToNwords at h
  split at h
  · simp_all
  · split at h
    · simp_all
    · split at h <;> simp_all

theorem packKey_getElem (key : Nat → Byte) (n : Nat) (out : Vector Word 8) (i : Nat) (h : i < 8) :
    (packKey key n out)[i] = if i < n then load32Be fun j => key (i * 4 + j) else out[i] := by
  induction n with
  | zero => simp [packKey]
  | succ n ih =>
    have hstep : packKey key (n + 1) out =
        (packKey key n out).setIfInBounds n (load32Be fun j => key (n * 4 + j)) := by
      simp [packKey, List.range_succ]
    rw [hstep, Vector.getElem_setIfInBounds, ih]
    by_cases hn : n = i
    · simp [hn]
    · rw [if_neg hn]
      by_cases hi : i < n
      · rw [if_pos hi, if_pos (by omega)]
      · rw [if_neg hi, if_neg (by omega)]

end Thingino.Crypto
