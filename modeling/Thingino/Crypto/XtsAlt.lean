import Thingino.Crypto.Cbc
import Thingino.Crypto.AesStandard
import Thingino.Lib.Xts

/-! XTS in `aes_alt.c`.

The call works through memory: it reads a block of the input, stores a block of the
output and doubles the tweak, byte by byte with a carry. When there is a remainder one
block is held back from the loop and the last two are done by stealing, where the rest of
the output is stored before the rest of the input is read. -/
namespace Thingino.Crypto
open Lib

/-! ### The calls -/

structure AesXtsContext where
  crypt : AesContext
  tweak : AesContext

def mbedtlsAesXtsInit : AesXtsContext := ⟨mbedtlsAesInit, mbedtlsAesInit⟩

def mbedtlsAesXtsSetkeyEnc (ctx : AesXtsContext) (key : Nat → Byte) (keybits : Nat) : Status × AesXtsContext :=
  let half := keybits / 2
  let (ret, crypt) := mbedtlsAesSetkeyEnc ctx.crypt key half
  let ctx := { ctx with crypt := crypt }
  if ret ≠ .ok then (ret, ctx)
  else
    let (ret, tweak) := mbedtlsAesSetkeyEnc ctx.tweak (fun i => key (half / 8 + i)) half
    (ret, { ctx with tweak := tweak })

def mbedtlsAesXtsSetkeyDec (ctx : AesXtsContext) (key : Nat → Byte) (keybits : Nat) : Status × AesXtsContext :=
  let half := keybits / 2
  let (ret, crypt) := mbedtlsAesSetkeyDec ctx.crypt key half
  let ctx := { ctx with crypt := crypt }
  if ret ≠ .ok then (ret, ctx)
  else
    -- the tweak is encrypted in both directions
    let (ret, tweak) := mbedtlsAesSetkeyEnc ctx.tweak (fun i => key (half / 8 + i)) half
    (ret, { ctx with tweak := tweak })

/-- One turn of the loop of `xts_mul_tweak`: the tweak with byte `j` shifted, and the carry. -/
def mulTweakByte (s : Block × Byte) (j : Nat) : Block × Byte :=
  let (tweak, cin) := s
  let cout := (tweak.getD j 0#8 >>> 7) &&& 1#8
  (tweak.setIfInBounds j ((tweak.getD j 0#8 <<< 1) ||| cin), cout)

def xtsMulTweak (tweak : Block) : Block :=
  let (tweak, cout) := (List.range 16).foldl mulTweakByte (tweak, 0#8)
  if cout ≠ 0#8 then tweak.setIfInBounds 0 (tweak.getD 0 0#8 ^^^ 0x87#8) else tweak

section Crypt
variable (ctx : AesXtsContext) (mode : Direction)

/-- A block between two additions of the tweak. -/
def xtsBlock (tweak b : Block) : Block :=
  Block.xor (mbedtlsAesCryptEcb ctx.crypt mode (Block.xor b tweak)).2 tweak

/-- The loop over `n` whole blocks: the memory, and the tweak it leaves. -/
def xtsLoop : Nat → Block → Buf → Nat → Nat → Buf × Block
  | 0, tweak, mem, _, _ => (mem, tweak)
  | n + 1, tweak, mem, input, output =>
    let tmp := xtsBlock ctx mode tweak (Block.ofList (mem.read input 16))
    xtsLoop n (xtsMulTweak tweak) (mem.write output tmp.toList) (input + 16) (output + 16)

/-- The last whole block and the `leftover` bytes behind it. -/
def xtsSteal (tweak : Block) (leftover : Nat) (mem : Buf) (input output : Nat) : Buf :=
  let nextTweak := xtsMulTweak tweak
  let first := if mode = .decrypt then nextTweak else tweak
  let second := if mode = .decrypt then tweak else nextTweak
  let tmp := xtsBlock ctx mode first (Block.ofList (mem.read input 16))
  let mem := mem.write (output + 16) (tmp.toList.take leftover)
  let prev := Block.ofList (overlay (mem.read (input + 16) leftover) tmp.toList)
  mem.write output (xtsBlock ctx mode second prev).toList

/-- `mbedtls_aes_crypt_xts`, with `input` and `output` addresses in `mem`. -/
def mbedtlsAesCryptXts (length : Nat) (dataUnit : Block) (mem : Buf) (input output : Nat) : Status × Buf :=
  if length < 16 then (.aesInvalidInputLength, mem)
  else
    let tweak := (mbedtlsAesCryptEcb ctx.tweak .encrypt dataUnit).2
    let leftover := length % 16
    let blocks := if leftover ≠ 0 then length / 16 - 1 else length / 16
    let (mem, tweak) := xtsLoop ctx mode blocks tweak mem input output
    if leftover ≠ 0 then
      (.ok, xtsSteal ctx mode tweak leftover mem (input + 16 * blocks) (output + 16 * blocks))
    else (.ok, mem)

end Crypt

/-! ### The tweak -/

/-- The carry into byte `q`: the top bit of the byte before it. -/
def carry (t : Block) : Nat → Byte
  | 0 => 0#8
  | q + 1 => (t.getD q 0#8 >>> 7) &&& 1#8

theorem getLsbD_carry (t : Block) (q r : Nat) :
    (carry t (q + 1)).getLsbD r = (decide (r = 0) && (t.getD q 0#8).getLsbD 7) := by
  rw [carry, BitVec.getLsbD_and, BitVec.getLsbD_ushiftRight, BitVec.getLsbD_one]
  by_cases h : r = 0
  · subst h
    simp
  · simp [h]

theorem foldl_mulTweakByte (t : Block) (n : Nat) (hn : n ≤ 16) :
    ((List.range n).foldl mulTweakByte (t, 0#8)).2 = carry t n ∧
      ∀ i, ((List.range n).foldl mulTweakByte (t, 0#8)).1.getD i 0#8 =
        if i < n then (t.getD i 0#8 <<< 1) ||| carry t i else t.getD i 0#8 := by
  induction n with
  | zero => exact ⟨rfl, fun _ => rfl⟩
  | succ n ih =>
    obtain ⟨hcarry, hbytes⟩ := ih (by omega)
    have hn' := hbytes n
    rw [if_neg (Nat.lt_irrefl n)] at hn'
    rw [List.range_succ, List.foldl_append, List.foldl_cons, List.foldl_nil]
    generalize (List.range n).foldl mulTweakByte (t, 0#8) = s at *
    obtain ⟨s, cin⟩ := s
    simp only at hcarry hbytes hn'
    simp only [mulTweakByte, hn']
    refine ⟨rfl, fun i => ?_⟩
    rw [getD_setIfInBounds _ _ _ _ _ (by omega), hbytes, hcarry]
    obtain hlt | rfl | hgt := Nat.lt_trichotomy i n
    · rw [if_neg (by omega), if_pos hlt, if_pos (by omega)]
    · rw [if_pos rfl, if_pos (by omega)]
    · rw [if_neg (by omega), if_neg (by omega), if_neg (by omega)]

theorem carry_ne_zero (t : Block) (q : Nat) : carry t (q + 1) ≠ 0#8 ↔ (t.getD q 0#8).getLsbD 7 = true := by
  constructor
  · intro h
    by_contra htop
    refine h (BitVec.eq_of_getLsbD_eq fun r _ => ?_)
    rw [getLsbD_carry, Bool.not_eq_true _ |>.mp htop, Bool.and_false, BitVec.getLsbD_zero]
  · intro htop h
    have hzero := getLsbD_carry t q 0
    rw [h, htop, BitVec.getLsbD_zero] at hzero
    cases hzero

/-- Byte by byte: the byte shifted, the carry into it, and the reduction in byte zero. -/
theorem getD_xtsMulTweak (t : Block) (q : Nat) (hq : q < 16) :
    (xtsMulTweak t).getD q 0#8 =
      ((t.getD q 0#8 <<< 1) ||| carry t q) ^^^
        (if q = 0 ∧ (t.getD 15 0#8).getLsbD 7 = true then 0x87#8 else 0#8) := by
  obtain ⟨hcarry, hbytes⟩ := foldl_mulTweakByte t 16 (Nat.le_refl 16)
  unfold xtsMulTweak
  generalize (List.range 16).foldl mulTweakByte (t, 0#8) = s at *
  obtain ⟨s, cout⟩ := s
  simp only at hcarry hbytes ⊢
  by_cases htop : (t.getD 15 0#8).getLsbD 7 = true
  · rw [hcarry, if_pos ((carry_ne_zero t 15).mpr htop), getD_setIfInBounds _ _ _ _ _ (by omega)]
    by_cases h0 : q = 0
    · subst h0
      rw [if_pos rfl, hbytes, if_pos (by omega), if_pos ⟨rfl, htop⟩]
    · rw [if_neg (Ne.symm h0), hbytes, if_pos hq, if_neg (fun h => h0 h.1), BitVec.xor_zero]
  · rw [hcarry, if_neg (fun h => htop ((carry_ne_zero t 15).mp h)), hbytes, if_pos hq, if_neg (fun h => htop h.2),
      BitVec.xor_zero]

theorem getLsbD_bits (b : Block) (q r : Nat) (hq : q < 16) (hr : r < 8) :
    (Xts.bits b).getLsbD (8 * q + r) = (b.getD q 0#8).getLsbD r := by
  rw [Xts.getLsbD_bits b q r hq hr, getD_eq_getElem b q 0#8 hq]

/-- A byte with the carry shifted in has the bits of the whole tweak shifted. -/
theorem getLsbD_shifted (t : Block) (q r : Nat) (hq : q < 16) (hr : r < 8) :
    ((t.getD q 0#8 <<< 1) ||| carry t q).getLsbD r = (Xts.bits t <<< 1).getLsbD (8 * q + r) := by
  have hin : decide (r < 8) = true := decide_eq_true hr
  have hwhole : decide (8 * q + r < 128) = true := decide_eq_true (by omega)
  rw [BitVec.getLsbD_or, BitVec.getLsbD_shiftLeft, BitVec.getLsbD_shiftLeft, hin, hwhole]
  cases r with
  | zero =>
    cases q with
    | zero => simp [carry]
    | succ q =>
      have hbelow : 8 * (q + 1) + 0 - 1 = 8 * q + 7 := by omega
      rw [getLsbD_carry, hbelow, getLsbD_bits t q 7 (by omega) (by decide),
        decide_eq_false (show ¬ 8 * (q + 1) + 0 < 1 by omega)]
      simp
  | succ r =>
    have hcarry : (carry t q).getLsbD (r + 1) = false := by
      cases q with
      | zero => exact BitVec.getLsbD_zero
      | succ q => rw [getLsbD_carry, decide_eq_false (Nat.succ_ne_zero r), Bool.false_and]
    have hbelow : 8 * q + (r + 1) - 1 = 8 * q + r := by omega
    rw [hcarry, hbelow, getLsbD_bits t q r hq (by omega), decide_eq_false (show ¬ 8 * q + (r + 1) < 1 by omega),
      decide_eq_false (show ¬ r + 1 < 1 by omega), Nat.add_sub_cancel, Bool.or_false]

/-- The reduction lies in byte zero. -/
theorem getLsbD_reduction (top : Bool) (q r : Nat) (hq : q < 16) (hr : r < 8) :
    (if q = 0 ∧ top = true then 0x87#8 else 0#8).getLsbD r =
      (if top = true then 0x87#128 else 0#128).getLsbD (8 * q + r) := by
  have hwide : (0x87#128).getLsbD (8 * q + r) = (0x87#8).getLsbD (8 * q + r) := by
    rw [← show (0x87#8).setWidth 128 = 0x87#128 from rfl, BitVec.getLsbD_setWidth,
      decide_eq_true (show 8 * q + r < 128 by omega), Bool.true_and]
  cases top with
  | false => simp
  | true =>
    rw [if_pos rfl, hwide]
    by_cases h0 : q = 0
    · subst h0
      rw [if_pos ⟨rfl, rfl⟩, Nat.mul_zero, Nat.zero_add]
    · rw [if_neg (fun h => h0 h.1), BitVec.getLsbD_zero, BitVec.getLsbD_of_ge _ _ (by omega)]

/-- **The carry chain is the multiplication by `α`**. -/
theorem bits_xtsMulTweak (t : Block) :
    Xts.bits (xtsMulTweak t) = BinaryPoly.mulX 0x87#128 (Xts.bits t) := by
  apply BitVec.eq_of_getLsbD_eq
  intro k hk
  obtain ⟨q, r, rfl, hq, hr⟩ : ∃ q r, k = 8 * q + r ∧ q < 16 ∧ r < 8 :=
    ⟨k / 8, k % 8, by omega, by omega, by omega⟩
  have htop : (Xts.bits t).getLsbD (128 - 1) = (t.getD 15 0#8).getLsbD 7 :=
    getLsbD_bits t 15 7 (by decide) (by decide)
  rw [getLsbD_bits _ q r hq hr, getD_xtsMulTweak t q hq, BinaryPoly.mulX, htop, BitVec.getLsbD_xor,
    BitVec.getLsbD_xor, getLsbD_shifted t q r hq hr, getLsbD_reduction _ q r hq hr]

/-- Doubling once for each block before it gives the tweak of a block. -/
theorem tweak_eq_iterate (T : Block) (j : Nat) : Xts.tweak T j = xtsMulTweak^[j] T := by
  have hbits : Xts.bits (xtsMulTweak^[j] T) = Xts.bits (Xts.tweak T j) := by
    rw [Xts.bits_tweak]
    exact Function.Semiconj.iterate_right (f := Xts.bits) bits_xtsMulTweak j T
  rw [← Xts.ofBits_bits (Xts.tweak T j), ← hbits, Xts.ofBits_bits]

end Thingino.Crypto
