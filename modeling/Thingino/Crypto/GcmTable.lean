import Thingino.Crypto.GcmAlt
import Thingino.Lib.Gf128

/-! The four-bit tables multiply in the field.

An entry is the pair `HH[i]`, `HL[i]` read as one string of 128 bits (`entry`). After
`gcm_gen_table` entry `n` is the multiple of `H` that the four bits of `n` select
(`gcmGenTable_entry`). One nibble of `gcm_mult` multiplies by `x⁴` and adds an
entry (`bits_multNibble`), so the loop is Horner's rule over the nibbles of the
operand, from the last one, and `gcm_mult` is `Gf128.mul` (`gcmMult_eq`). -/
namespace Thingino.Crypto
open Lib

/-! ### Two words as one string of bits -/

/-- A shift across the two words. -/
theorem append_shiftRight (zh zl : BitVec 64) (n : Nat) (hn : n ≤ 64) :
    (zh >>> n) ++ ((zh <<< (64 - n)) ||| (zl >>> n)) = (zh ++ zl) >>> n := by
  apply BitVec.eq_of_getLsbD_eq
  intro k hk
  rw [BitVec.getLsbD_ushiftRight, BitVec.getLsbD_append, BitVec.getLsbD_append, BitVec.getLsbD_or,
    BitVec.getLsbD_ushiftRight, BitVec.getLsbD_ushiftRight, BitVec.getLsbD_shiftLeft]
  by_cases h64 : k < 64
  · rw [if_pos h64]
    by_cases hnk : n + k < 64
    · rw [if_pos hnk, decide_eq_true (show k < 64 - n by omega)]
      simp
    · rw [if_neg hnk, decide_eq_false (show ¬ k < 64 - n by omega), decide_eq_true h64,
        BitVec.getLsbD_of_ge zl (n + k) (by omega), Bool.or_false, show k - (64 - n) = n + k - 64 by omega]
      simp
  · rw [if_neg h64, if_neg (by omega), show n + (k - 64) = n + k - 64 by omega]

theorem append_xor_append (a b c d : BitVec 64) : (a ^^^ b) ++ (c ^^^ d) = (a ++ c) ^^^ (b ++ d) := by
  apply BitVec.eq_of_getLsbD_eq
  intro k _
  simp only [BitVec.getLsbD_xor, BitVec.getLsbD_append]
  split <;> rfl

/-- The first word alone carries what `^^^` adds to it. -/
theorem xor_append_left (a b c : BitVec 64) : (a ^^^ b) ++ c = (a ++ c) ^^^ (b ++ 0#64) := by
  rw [← append_xor_append, BitVec.xor_zero]

theorem getLsbD_load64Be (b : Nat → Byte) (q r : Nat) (hq : q < 8) (hr : r < 8) :
    (load64Be b).getLsbD (8 * q + r) = (b (7 - q)).getLsbD r := by
  have h (x : Byte) (m : Nat) := getLsbD_placed (w := 64) x m q r (by omega) hr
  have h0 := h (b 7) 0
  rw [Nat.mul_zero, BitVec.shiftLeft_zero] at h0
  simp only [load64Be, BitVec.getLsbD_or, h0, h _ 1, h _ 2, h _ 3, h _ 4, h _ 5, h _ 6, h _ 7]
  interval_cases q <;> simp

/-- The bytes of a block, eight to a word. -/
theorem load64Be_append (b : Block) :
    (load64Be fun j => b.toList.getD j 0#8) ++ (load64Be fun j => b.toList.getD (8 + j) 0#8) = b.bits := by
  apply BitVec.eq_of_getLsbD_eq
  intro k hk
  have hk' : k = 8 * (k / 8) + k % 8 := by omega
  have hget (i : Nat) (hi : i < 16) : b.toList.getD i 0#8 = b[i] := by
    simp [List.getD_eq_getElem?_getD, hi]
  rw [hk', Block.getLsbD_bits b (k / 8) (k % 8) (by omega) (by omega), BitVec.getLsbD_append]
  split
  · rw [getLsbD_load64Be _ (k / 8) (k % 8) (by omega) (by omega), hget _ (by omega)]
    simp only [show 8 + (7 - k / 8) = 15 - k / 8 by omega]
  · rw [show 8 * (k / 8) + k % 8 - 64 = 8 * (k / 8 - 8) + k % 8 by omega,
      getLsbD_load64Be _ (k / 8 - 8) (k % 8) (by omega) (by omega), hget _ (by omega)]
    simp only [show 7 - (k / 8 - 8) = 15 - k / 8 by omega]

theorem getElem_store64Be (v : BitVec 64) (i : Nat) (h : i < (store64Be v).length) :
    (store64Be v)[i] = v.extractLsb' (8 * (7 - i)) 8 := by
  have h8 : i < 8 := h
  interval_cases i <;> rfl

/-- Two words stored one after the other are the bytes of the string. -/
theorem ofList_store64Be (zh zl : BitVec 64) :
    Block.ofList (store64Be zh ++ store64Be zl) = Block.ofBits (zh ++ zl) := by
  apply Vector.ext
  intro i hi
  apply BitVec.eq_of_getLsbD_eq
  intro r hr
  have hlen (v : BitVec 64) : (store64Be v).length = 8 := rfl
  rw [Block.getElem_ofList, Block.getElem_ofBits, BitVec.getLsbD_extractLsb', BitVec.getLsbD_append,
    List.getD_eq_getElem?_getD]
  by_cases h8 : i < 8
  · rw [List.getElem?_append_left (by rw [hlen]; omega), List.getElem?_eq_getElem (by rw [hlen]; omega),
      Option.getD_some, getElem_store64Be, BitVec.getLsbD_extractLsb', if_neg (by omega)]
    congr 2
    omega
  · rw [List.getElem?_append_right (by rw [hlen]; omega), List.getElem?_eq_getElem (by rw [hlen, hlen]; omega),
      Option.getD_some, getElem_store64Be, BitVec.getLsbD_extractLsb', if_pos (by omega), hlen]
    congr 2
    omega

/-! ### The table -/

/-- An entry of the two tables as one string. -/
def GcmContext.entry (ctx : GcmContext) (i : Nat) : BitVec 128 := ctx.HH.getD i 0#64 ++ ctx.HL.getD i 0#64

theorem entry_setEntry (ctx : GcmContext) (i j : Nat) (vh vl : BitVec 64) (hi : i < 16) :
    (ctx.setEntry i vh vl).entry j = if i = j then vh ++ vl else ctx.entry j := by
  simp only [GcmContext.entry, GcmContext.setEntry, getD_setIfInBounds _ _ _ _ _ hi]
  split <;> rfl

/-- The multiple of `H` that the four bits of `n` select, the highest bit for `H` itself. -/
def nibble (H : BitVec 128) (n : Nat) : BitVec 128 := Gf128.comb H (fun i => n.testBit (3 - i)) 4

/-- The table holds the sixteen multiples of `H`. -/
def GcmContext.Tabled (ctx : GcmContext) (H : BitVec 128) : Prop := ∀ n, n < 16 → ctx.entry n = nibble H n

theorem append_mulX (vh vl : BitVec 64) :
    ((vh >>> 1) ^^^ (((vl &&& 1#64).setWidth 32 * 0xe1000000#32).setWidth 64 <<< 32)) ++
      ((vh <<< 63) ||| (vl >>> 1)) = Gf128.mulX (vh ++ vl) := by
  have hbit : (vh ++ vl).getLsbD 0 = vl.getLsbD 0 := by
    rw [BitVec.getLsbD_append, if_pos (by omega)]
  have hone : vl &&& 1#64 = if vl.getLsbD 0 then 1#64 else 0#64 := by
    apply BitVec.eq_of_getLsbD_eq
    intro k hk
    rw [BitVec.getLsbD_and, BitVec.getLsbD_one]
    cases k with
    | zero => cases vl.getLsbD 0 <;> rfl
    | succ k => cases vl.getLsbD 0 <;> simp
  rw [xor_append_left, append_shiftRight vh vl 1 (by omega), Gf128.mulX, hbit, hone]
  cases vl.getLsbD 0
  · exact congrArg _ (by decide)
  · exact congrArg _ (by decide)

/-- One turn of the first loop stores `x` times the value before. -/
theorem genTableStep_eq (ctx : GcmContext) (vh vl : BitVec 64) (i : Nat) :
    ∃ vh' vl', genTableStep (ctx, vh, vl) i = (ctx.setEntry i vh' vl', vh', vl') ∧
      vh' ++ vl' = Gf128.mulX (vh ++ vl) :=
  ⟨_, _, rfl, append_mulX vh vl⟩

theorem entry_fillEntry (ctx : GcmContext) (i j k : Nat) (h : i + j < 16) :
    (fillEntry i ctx j).entry k = if i + j = k then ctx.entry i ^^^ ctx.entry j else ctx.entry k := by
  rw [fillEntry, entry_setEntry _ _ _ _ _ h, append_xor_append]
  rfl

/-- The inner loop: every entry above `i` becomes a sum. -/
theorem entry_fill (ctx : GcmContext) (i m k : Nat) (hm : m < i) (h : i + m < 16) :
    ((List.range' 1 m).foldl (fillEntry i) ctx).entry k =
      if i < k ∧ k ≤ i + m then ctx.entry i ^^^ ctx.entry (k - i) else ctx.entry k := by
  induction m generalizing k with
  | zero => rw [if_neg (by omega)]; rfl
  | succ m ih =>
    have hi := ih i (by omega) (by omega)
    have hj := ih (1 + m) (by omega) (by omega)
    rw [if_neg (by omega)] at hi hj
    rw [List.range'_concat, List.foldl_append, List.foldl_cons, List.foldl_nil, Nat.one_mul,
      entry_fillEntry _ _ _ _ (by omega), hi, hj, ih k (by omega) (by omega)]
    by_cases hk : i + (1 + m) = k
    · rw [if_pos hk, if_pos (by omega), show k - i = 1 + m by omega]
    · rw [if_neg hk]
      by_cases hk' : i < k ∧ k ≤ i + m
      · rw [if_pos hk', if_pos (by omega)]
      · rw [if_neg hk', if_neg (by omega)]

/-- The entries the first loop stores: `0`, `H` and the first three multiples by `x`. -/
theorem powers_stored (ctx : GcmContext) (vh vl : BitVec 64) :
    let e := ([4, 2, 1].foldl genTableStep ((ctx.setEntry 0 0#64 0#64).setEntry 8 vh vl, vh, vl)).1.entry
    e 0 = 0#128 ∧ e 8 = vh ++ vl ∧ e 4 = Gf128.mulX (vh ++ vl) ∧ e 2 = Gf128.mulX^[2] (vh ++ vl) ∧
      e 1 = Gf128.mulX^[3] (vh ++ vl) := by
  obtain ⟨h4, l4, e4, m4⟩ := genTableStep_eq ((ctx.setEntry 0 0#64 0#64).setEntry 8 vh vl) vh vl 4
  obtain ⟨h2, l2, e2, m2⟩ := genTableStep_eq (((ctx.setEntry 0 0#64 0#64).setEntry 8 vh vl).setEntry 4 h4 l4) h4 l4 2
  obtain ⟨h1, l1, e1, m1⟩ := genTableStep_eq
    ((((ctx.setEntry 0 0#64 0#64).setEntry 8 vh vl).setEntry 4 h4 l4).setEntry 2 h2 l2) h2 l2 1
  simp only [List.foldl_cons, List.foldl_nil, e4, e2, e1]
  refine ⟨?_, ?_, ?_, ?_, ?_⟩
  · simp [entry_setEntry]
  · simp [entry_setEntry]
  · simp [entry_setEntry, m4]
  · simp [entry_setEntry, m2, m4]
  · simp [entry_setEntry, m1, m2, m4]

/-- From the powers the second loop makes all sixteen multiples. -/
theorem sums_stored (c : GcmContext) (H : BitVec 128) (h0 : c.entry 0 = 0#128) (h8 : c.entry 8 = H)
    (h4 : c.entry 4 = Gf128.mulX H) (h2 : c.entry 2 = Gf128.mulX^[2] H) (h1 : c.entry 1 = Gf128.mulX^[3] H)
    (n : Nat) (hn : n < 16) :
    ([2, 4, 8].foldl (fun ctx i => (List.range' 1 (i - 1)).foldl (fillEntry i) ctx) c).entry n = nibble H n := by
  have hx : Gf128.mulX^[1] H = Gf128.mulX H := rfl
  have hH : Gf128.mulX^[0] H = H := rfl
  simp only [List.foldl_cons, List.foldl_nil, entry_fill _ 8 (8 - 1) _ (by omega) (by omega),
    entry_fill _ 4 (4 - 1) _ (by omega) (by omega), entry_fill _ 2 (2 - 1) _ (by omega) (by omega)]
  interval_cases n <;> simp [nibble, Gf128.comb, Nat.testBit, h0, h1, h2, h4, h8, BitVec.xor_assoc]

/-- **The table is right**: sixteen multiples of the hash subkey. -/
theorem gcmGenTable_tabled (ctx : GcmContext) : (gcmGenTable ctx).Tabled ctx.H.bits := by
  intro n hn
  have hpowers := powers_stored ctx (load64Be fun j => ctx.H.toList.getD j 0#8)
    (load64Be fun j => ctx.H.toList.getD (8 + j) 0#8)
  rw [load64Be_append] at hpowers
  rw [gcmGenTable]
  dsimp only at hpowers ⊢
  generalize [4, 2, 1].foldl genTableStep _ = stored at hpowers ⊢
  obtain ⟨c, vh, vl⟩ := stored
  obtain ⟨h0, h8, h4, h2, h1⟩ := hpowers
  have hsums := sums_stored c _ h0 h8 h4 h2 h1 n hn
  rw [← hsums]
  dsimp only [GcmContext.entry]

/-- Nothing but the tables differs. -/
structure GcmContext.SameRest (ctx ctx' : GcmContext) : Prop where
  aesSw : ctx'.aesSw = ctx.aesSw
  hwKey : ctx'.hwKey = ctx.hwKey
  keybits : ctx'.keybits = ctx.keybits
  haveKey : ctx'.haveKey = ctx.haveKey
  H : ctx'.H = ctx.H
  scratchCtr : ctx'.scratchCtr = ctx.scratchCtr
  scratchKs : ctx'.scratchKs = ctx.scratchKs

theorem GcmContext.SameRest.setEntry {ctx c : GcmContext} (h : ctx.SameRest c) (i : Nat) (vh vl : BitVec 64) :
    ctx.SameRest (c.setEntry i vh vl) :=
  ⟨h.aesSw, h.hwKey, h.keybits, h.haveKey, h.H, h.scratchCtr, h.scratchKs⟩

theorem gcmGenTable_sameRest (ctx : GcmContext) : ctx.SameRest (gcmGenTable ctx) := by
  unfold gcmGenTable
  have hself : ctx.SameRest ctx := ⟨rfl, rfl, rfl, rfl, rfl, rfl, rfl⟩
  have hpowers (vh vl : BitVec 64) :
      ctx.SameRest ([4, 2, 1].foldl genTableStep ((ctx.setEntry 0 0#64 0#64).setEntry 8 vh vl, vh, vl)).1 :=
    List.foldlRecOn (motive := fun s : GcmContext × BitVec 64 × BitVec 64 => ctx.SameRest s.1) _ _ ((hself.setEntry ..).setEntry ..)
      fun s h i _ => h.setEntry i _ _
  have hsums (c : GcmContext) (h : ctx.SameRest c) :
      ctx.SameRest ([2, 4, 8].foldl (fun ctx i => (List.range' 1 (i - 1)).foldl (fillEntry i) ctx) c) :=
    List.foldlRecOn _ _ h fun c h i _ => List.foldlRecOn _ _ h fun c h j _ => h.setEntry (i + j) _ _
  dsimp only
  have hpowers := hpowers (load64Be fun j => ctx.H.toList.getD j 0#8) (load64Be fun j => ctx.H.toList.getD (8 + j) 0#8)
  generalize [4, 2, 1].foldl genTableStep _ = stored at hpowers ⊢
  have h := hsums _ hpowers
  generalize [2, 4, 8].foldl _ stored.1 = c at h ⊢
  exact ⟨h.aesSw, h.hwKey, h.keybits, h.haveKey, h.H, h.scratchCtr, h.scratchKs⟩

/-! ### The product -/

/-- The reduction table: four bits that fall off, times `x⁴`. -/
theorem last4_eq (r : Fin 16) :
    ((gcmLast4.getD r.val 0#16).setWidth 64 <<< 48) ++ 0#64 = Gf128.mulX^[4] (BitVec.ofNat 128 r.val) := by
  revert r
  decide

theorem low_nibble (zh zl : BitVec 64) :
    (zh ++ zl) &&& 15#128 = BitVec.ofNat 128 (zl &&& 15#64).toNat := by
  apply BitVec.eq_of_getLsbD_eq
  intro k hk
  rw [BitVec.getLsbD_and, Gf128.getLsbD_fifteen k (by omega), BitVec.getLsbD_append, BitVec.getLsbD_ofNat,
    BitVec.testBit_toNat, BitVec.getLsbD_and, Gf128.getLsbD_fifteen k (by omega)]
  by_cases h : k < 4
  · simp [h, hk, show k < 64 by omega]
  · simp [h]

/-- Four bits to the right and an entry added: times `x⁴`, plus the entry. -/
theorem append_multNibble (ctx : GcmContext) (z : BitVec 64 × BitVec 64) (n : Nat) :
    (multNibble ctx z n).1 ++ (multNibble ctx z n).2 = Gf128.mulX^[4] (z.1 ++ z.2) ^^^ ctx.entry n := by
  obtain ⟨zh, zl⟩ := z
  have hlt : (zl &&& 15#64).toNat < 16 := by
    rw [BitVec.toNat_and]
    exact Nat.lt_of_le_of_lt Nat.and_le_right (by decide)
  have hlast := last4_eq ⟨_, hlt⟩
  simp only [multNibble]
  rw [append_xor_append, xor_append_left, append_shiftRight zh zl 4 (by omega), Gf128.mulX_four (zh ++ zl),
    low_nibble, hlast]
  rfl

/-- The part of the product that the nibbles from `q` on contribute, divided by `x^(4q)`. -/
def tailSum (H X : BitVec 128) (q : Nat) : BitVec 128 := Gf128.comb H (fun i => X.getMsbD (4 * q + i)) (128 - 4 * q)

theorem tailSum_succ (H X : BitVec 128) (q n : Nat) (hq : q < 32)
    (hn : ∀ i, i < 4 → n.testBit (3 - i) = X.getMsbD (4 * q + i)) :
    tailSum H X q = Gf128.mulX^[4] (tailSum H X (q + 1)) ^^^ nibble H n := by
  have hsplit : 128 - 4 * q = 4 + (128 - 4 * (q + 1)) := by omega
  rw [tailSum, hsplit, Gf128.comb_add, nibble, Gf128.comb_congr H _ _ 4 hn, BitVec.xor_comm, tailSum]
  simp only [Nat.mul_add, Nat.mul_one, Nat.add_assoc]

theorem tailSum_end (H X : BitVec 128) : tailSum H X 32 = 0#128 := rfl

/-- A byte of a block in the order of the bits. -/
theorem getMsbD_bits (x : Block) (i r : Nat) (hi : i < 16) (hr : r < 8) :
    x.bits.getMsbD (8 * i + r) = x[i].getLsbD (7 - r) := by
  rw [BitVec.getMsbD, decide_eq_true (by omega), Bool.true_and,
    show 128 - 1 - (8 * i + r) = 8 * (15 - i) + (7 - r) by omega,
    Block.getLsbD_bits x (15 - i) (7 - r) (by omega) (by omega)]
  simp only [show 15 - (15 - i) = i by omega]

theorem testBit_lo (b : Byte) (j : Nat) (h : j < 4) : (b &&& 0x0F#8).toNat.testBit j = b.getLsbD j := by
  rw [BitVec.testBit_toNat, BitVec.getLsbD_and, Gf128.getLsbD_fifteen j (by omega), decide_eq_true h, Bool.and_true]

theorem testBit_hi (b : Byte) (j : Nat) (h : j < 4) :
    ((b >>> 4) &&& 0x0F#8).toNat.testBit j = b.getLsbD (4 + j) := by
  rw [testBit_lo _ _ h, BitVec.getLsbD_ushiftRight]

theorem toNat_low_lt (b : Byte) : (b &&& 0x0F#8).toNat < 16 := by
  rw [BitVec.toNat_and]
  exact Nat.lt_of_le_of_lt Nat.and_le_right (by decide)

section Mult
variable {ctx : GcmContext} {H : BitVec 128} (hT : ctx.Tabled H) (x : Block)
include hT

theorem tailSum_lo (i : Nat) (hi : i < 16) :
    tailSum H x.bits (2 * i + 1) =
      Gf128.mulX^[4] (tailSum H x.bits (2 * i + 2)) ^^^ ctx.entry (x[i] &&& 0x0F#8).toNat := by
  rw [hT _ (toNat_low_lt _)]
  refine tailSum_succ H x.bits (2 * i + 1) _ (by omega) fun k hk => ?_
  rw [testBit_lo _ _ (by omega), show 4 * (2 * i + 1) + k = 8 * i + (4 + k) by omega,
    getMsbD_bits x i (4 + k) hi (by omega), show 7 - (4 + k) = 3 - k by omega]

theorem tailSum_hi (i : Nat) (hi : i < 16) :
    tailSum H x.bits (2 * i) =
      Gf128.mulX^[4] (tailSum H x.bits (2 * i + 1)) ^^^ ctx.entry ((x[i] >>> 4) &&& 0x0F#8).toNat := by
  rw [hT _ (toNat_low_lt _)]
  refine tailSum_succ H x.bits (2 * i) _ (by omega) fun k hk => ?_
  rw [testBit_hi _ _ (by omega), show 4 * (2 * i) + k = 8 * i + k by omega, getMsbD_bits x i k hi (by omega),
    show 7 - k = 4 + (3 - k) by omega]

/-- Horner's rule over the bytes below `m`. -/
theorem multByte_fold (m : Nat) (hm : m ≤ 15) (z : BitVec 64 × BitVec 64)
    (hz : z.1 ++ z.2 = tailSum H x.bits (2 * m)) :
    ((List.range m).reverse.foldl (multByte ctx x) z).1 ++ ((List.range m).reverse.foldl (multByte ctx x) z).2 =
      tailSum H x.bits 0 := by
  induction m generalizing z with
  | zero => exact hz
  | succ m ih =>
    rw [List.range_succ, List.reverse_append, List.reverse_singleton, List.singleton_append, List.foldl_cons]
    apply ih (by omega)
    have hget : x.getD m 0#8 = x[m] := getD_eq_getElem x m 0#8 (by omega)
    simp only [multByte, if_pos (show m ≠ 15 by omega), hget]
    rw [append_multNibble, append_multNibble, hz, tailSum_hi hT x m (by omega), tailSum_lo hT x m (by omega)]
    rfl

/-- **`gcm_mult` is the product in the field.** -/
theorem gcmMult_eq : gcmMult ctx x = Block.ofBits (Gf128.mul x.bits H) := by
  have hget : x.getD 15 0#8 = x[15] := getD_eq_getElem x 15 0#8 (by decide)
  have hlast : tailSum H x.bits 31 = ctx.entry (x[15] &&& 0x0F#8).toNat := by
    rw [show 31 = 2 * 15 + 1 from rfl, tailSum_lo hT x 15 (by omega), tailSum_end, Gf128.iterate_mulX_zero,
      BitVec.zero_xor]
  let z := multByte ctx x (ctx.HH.getD (x[15] &&& 0x0F#8).toNat 0#64,
    ctx.HL.getD (x[15] &&& 0x0F#8).toNat 0#64) 15
  have hfirst : z.1 ++ z.2 = tailSum H x.bits (2 * 15) := by
    simp only [z, multByte, ne_eq, not_true, if_false, hget]
    rw [append_multNibble, tailSum_hi hT x 15 (by omega), hlast]
    rfl
  have hfold := multByte_fold hT x 15 (Nat.le_refl 15) _ hfirst
  unfold gcmMult
  dsimp only
  rw [hget, List.range_succ, List.reverse_append, List.reverse_singleton, List.singleton_append, List.foldl_cons]
  rw [ofList_store64Be, hfold, Gf128.mul_eq_comb]
  simp only [tailSum, Nat.mul_zero, Nat.zero_add, Nat.sub_zero]

end Mult

end Thingino.Crypto
