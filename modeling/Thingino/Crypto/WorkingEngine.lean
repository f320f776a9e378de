import Thingino.Crypto.AesInverse

/-! What a working engine computes.

A request carries a key and a vector as big-endian words (`Carries`,
`CarriesIv`), and names a mode; `answer` is AES in that mode over the bytes at
`src`. A device computes AES when a request that reports all of its bytes done
left exactly that at the destination (`ComputesAes`). It may refuse or cut short
any request it likes. `softwareEngine` is such a device, which finishes
everything: it runs the cipher of `aes_alt.c` on the words of the request. -/
namespace Thingino.Crypto
open Lib

namespace JzAesPara

/-- The request is for this key. `aes_alt.c` leaves `keybits` zero and only has
128-bit keys to send. -/
structure Carries (p : JzAesPara) (key : Nat → Byte) (keybits : Nat) : Prop where
  size : keybits = 128 ∨ keybits = 192 ∨ keybits = 256
  bits : p.keybits = keybits ∨ p.keybits = 0 ∧ keybits = 128
  bswap : p.flags = aesFlagBswap
  words : ∀ i (h : i < 8), i < keybits / 32 → p.aeskey[i] = load32Be fun j => key (4 * i + j)

def CarriesIv (p : JzAesPara) (iv : Block) : Prop :=
  ∀ i (h : i < 4), p.aesiv[i] = load32Be fun j => iv.toList.getD (4 * i + j) 0#8

/-- AES in the request's mode, over the bytes at `src`. -/
def answer (p : JzAesPara) (key : Nat → Byte) (keybits : Nat) (iv : Block) : List Byte :=
  match p.enworkmode with
  | .encEcb => ecb (aesEncrypt key keybits) p.src
  | .decEcb => ecb (aesDecrypt key keybits) p.src
  | .encCbc => ofBlocks (cbcEncrypt (aesEncrypt key keybits) iv (toBlocks p.src))
  | .decCbc => ofBlocks (cbcDecrypt (aesDecrypt key keybits) iv (toBlocks p.src))

end JzAesPara

/-- A request of whole blocks that reports all of them done left AES at the destination. -/
def Device.ComputesAes {ω : Type} (dev : Device ω) : Prop :=
  ∀ (w : ω) (p : JzAesPara) (key : Nat → Byte) (keybits : Nat) (iv : Block),
    p.Carries key keybits → p.CarriesIv iv → p.src.length % 16 = 0 →
    p.datalen.toNat = p.src.length → done (dev.ioctl w p).1 p.src.length →
    moved (dev.ioctl w p).1 p = p.answer key keybits iv

/-- No request is refused or cut short. -/
def Device.AlwaysDone {ω : Type} (dev : Device ω) : Prop :=
  ∀ (w : ω) (p : JzAesPara), done (dev.ioctl w p).1 p.datalen.toNat

/-! ### An engine made of software -/

/-- Byte `i` of big-endian words. -/
def byteOfWords (words : Nat → Word) (i : Nat) : Byte := (words (i / 4) >>> (24 - 8 * (i % 4))).setWidth 8

theorem load32Be_byteOfWords (words : Nat → Word) (i : Nat) :
    (load32Be fun j => byteOfWords words (4 * i + j)) = words i := by
  apply BitVec.eq_of_getLsbD_eq
  intro k hk
  rw [show k = 8 * (k / 8) + k % 8 by omega, getLsbD_load32Be _ _ _ (by omega) (by omega), byteOfWords,
    show (4 * i + (3 - k / 8)) / 4 = i by omega, show (4 * i + (3 - k / 8)) % 4 = 3 - k / 8 by omega,
    BitVec.getLsbD_setWidth, BitVec.getLsbD_ushiftRight, decide_eq_true (by omega), Bool.true_and,
    show 24 - 8 * (3 - k / 8) + k % 8 = 8 * (k / 8) + k % 8 by omega]

/-- The bytes of a big-endian word are the ones it was loaded from. -/
theorem byte_load32Be (b : Nat → Byte) (j : Nat) (hj : j < 4) :
    (load32Be b >>> (24 - 8 * j)).setWidth 8 = b j := by
  apply BitVec.eq_of_getLsbD_eq
  intro k hk
  rw [BitVec.getLsbD_setWidth, BitVec.getLsbD_ushiftRight, decide_eq_true hk, Bool.true_and,
    show 24 - 8 * j + k = 8 * (3 - j) + k by omega, getLsbD_load32Be _ _ _ (by omega) hk,
    show 3 - (3 - j) = j by omega]

theorem foldl_set_congr (f g : Nat → Word) (l : List Nat) (rk : Vector Word 68) (h : ∀ i ∈ l, f i = g i) :
    l.foldl (fun rk i => rk.setIfInBounds i (f i)) rk = l.foldl (fun rk i => rk.setIfInBounds i (g i)) rk := by
  induction l generalizing rk with
  | nil => rfl
  | cons i l ih =>
    rw [List.foldl_cons, List.foldl_cons, h i (List.mem_cons_self ..)]
    exact ih _ fun j hj => h j (List.mem_cons_of_mem _ hj)

/-- A schedule only sees the key's words. -/
theorem swKeyExpand_key_congr (rk : Vector Word 68) (key key' : Nat → Byte) (keybits : Nat)
    (h : ∀ i, i < keybits / 32 → (load32Be fun j => key (4 * i + j)) = load32Be fun j => key' (4 * i + j)) :
    swKeyExpand rk key keybits = swKeyExpand rk key' keybits := by
  have hfirst := foldl_set_congr (fun i => load32Be fun j => key (4 * i + j))
    (fun i => load32Be fun j => key' (4 * i + j)) (List.range (keybits / 32)) rk
    fun i hi => h i (List.mem_range.mp hi)
  exact congrArg (fun rk => (List.range' (keybits / 32) (4 * (keybits / 32 + 6 + 1) - keybits / 32)).foldl
    (fun rk i => rk.setIfInBounds i (expandWord (keybits / 32) rk i)) rk) hfirst

def requestWords (p : JzAesPara) (i : Nat) : Word := p.aeskey.getD i 0#32
def requestIv (p : JzAesPara) : Block := Vector.ofFn fun i => byteOfWords (fun k => p.aesiv.getD k 0#32) i.val
def requestBits (p : JzAesPara) : Nat := if p.keybits = 0 then 128 else p.keybits

/-- A device that opens, allocates and answers every request. -/
def softwareEngine : Device Unit where
  openAes := fun w => (3, w)
  ioctl := fun w p => (⟨0, p.answer (byteOfWords (requestWords p)) (requestBits p) (requestIv p), p.datalen⟩, w)
  malloc := fun w _ => (some ⟨fun _ => 0#8, []⟩, w)

theorem length_answer (p : JzAesPara) (key : Nat → Byte) (keybits : Nat) (iv : Block)
    (h : p.src.length % 16 = 0) : (p.answer key keybits iv).length = p.src.length := by
  unfold JzAesPara.answer
  cases p.enworkmode <;> simp <;> omega

theorem requestIv_eq (p : JzAesPara) (iv : Block) (h : p.CarriesIv iv) : requestIv p = iv := by
  apply Vector.ext
  intro i hi
  have hd : p.aesiv.getD (i / 4) 0#32 = p.aesiv[i / 4] := by
    simp [Vector.getD, show i / 4 < 4 by omega]
  have hsum : 4 * (i / 4) + i % 4 = i := by omega
  simp only [requestIv, Vector.getElem_ofFn, byteOfWords, hd, h (i / 4) (by omega)]
  rw [byte_load32Be _ (i % 4) (by omega), hsum]
  simp [List.getD_eq_getElem?_getD, hi]

theorem softwareEngine_done : softwareEngine.AlwaysDone := fun _ _ => ⟨Int.le_refl 0, rfl⟩

theorem softwareEngine_computes : softwareEngine.ComputesAes := by
  intro w p key keybits iv hc hiv hlen hdata _
  have hbits : requestBits p = keybits := by
    unfold requestBits
    have := hc.size
    rcases hc.bits with h | ⟨h, h'⟩
    · rw [if_neg (by omega), h]
    · rw [if_pos h, h']
  have hkey : swKeyExpand (Vector.replicate 68 0#32) (byteOfWords (requestWords p)) keybits =
      swKeyExpand (Vector.replicate 68 0#32) key keybits := by
    apply swKeyExpand_key_congr
    intro i hi
    have h8 : i < 8 := by
      have := hc.size
      omega
    rw [load32Be_byteOfWords, requestWords, ← hc.words i h8 hi]
    simp [Vector.getD, h8]
  have henc : aesEncrypt (byteOfWords (requestWords p)) keybits = aesEncrypt key keybits := by
    funext b
    rw [aesEncrypt, aesEncrypt, hkey]
  have hdec : aesDecrypt (byteOfWords (requestWords p)) keybits = aesDecrypt key keybits := by
    funext b
    rw [aesDecrypt, aesDecrypt, hkey]
  have hans : p.answer (byteOfWords (requestWords p)) (requestBits p) (requestIv p) =
      p.answer key keybits iv := by
    unfold JzAesPara.answer
    rw [hbits, henc, hdec, requestIv_eq p iv hiv]
  show (p.answer (byteOfWords (requestWords p)) (requestBits p) (requestIv p)).take p.datalen.toNat = _
  rw [hans, hdata, List.take_of_length_le (by rw [length_answer _ _ _ _ hlen])]

end Thingino.Crypto
