import Thingino.Crypto.CcmAlt
import Thingino.Lib.Aead

/-! What `build_mac_input` and `build_ctr_blocks` lay out.

Both fill a scratch buffer from its start, so after each store the buffer holds a
longer string (`Buf.Holds`). At the end it holds the MAC input of the standard
(`buildMacInput_holds`), or its counter blocks (`ccmBuildCtrBlocks_holds`). The same
walk says how far the stores reach: not beyond what is held. -/
namespace Thingino.Crypto
open Lib

/-! ### Big-endian fields -/

theorem data_putBe_steps (buf : Buf) (off q x m i : Nat) (hm : m ≤ q) :
    ((List.range m).foldl (fun b i => b.write (off + q - 1 - i) [BitVec.ofNat 8 (x >>> (8 * i))]) buf).data i =
      if off + q - m ≤ i ∧ i < off + q then BitVec.ofNat 8 (x >>> (8 * (off + q - 1 - i))) else buf.data i := by
  induction m with
  | zero => rw [if_neg (by omega)]; rfl
  | succ m ih =>
    rw [List.range_succ, List.foldl_append, List.foldl_cons, List.foldl_nil]
    by_cases h : i = off + q - 1 - m
    · have hin := Buf.data_write_inside ((List.range m).foldl
        (fun b i => b.write (off + q - 1 - i) [BitVec.ofNat 8 (x >>> (8 * i))]) buf) (off + q - 1 - m)
        [BitVec.ofNat 8 (x >>> (8 * m))] 0 (by simp)
      rw [Nat.add_zero] at hin
      rw [h, hin, if_pos (by omega), show off + q - 1 - (off + q - 1 - m) = m by omega]
      rfl
    · rcases Nat.lt_or_gt_of_ne h with hlt | hgt
      · rw [Buf.data_write_of_lt _ _ _ _ hlt, ih (by omega), if_neg (by omega), if_neg (by omega)]
      · rw [Buf.data_write_of_ge _ _ _ _ (by simp; omega), ih (by omega)]
        by_cases hi : i < off + q
        · rw [if_pos (by omega), if_pos (by omega)]
        · rw [if_neg (by omega), if_neg (by omega)]

/-- The descending loop appends a big-endian number. -/
theorem putBe_holds {buf : Buf} {l : List Byte} (h : buf.Holds l) (off q x : Nat) (hoff : off = l.length) :
    (putBe buf off q x).Holds (l ++ beBytes q x) := by
  subst hoff
  have hdata (i : Nat) := data_putBe_steps buf l.length q x q i (Nat.le_refl q)
  unfold Buf.Holds at h ⊢
  rw [List.length_append, length_beBytes, Buf.read_add, Nat.zero_add]
  refine congrArg₂ (· ++ ·) ?_ ?_
  · refine (Buf.read_congr _ buf 0 l.length fun i hi => ?_).trans h
    rw [putBe, hdata, if_neg (by omega)]
  · apply List.map_congr_left
    intro i hi
    have hi' := List.mem_range.mp hi
    rw [putBe, hdata, if_pos (by omega), show l.length + q - 1 - (l.length + i) = q - 1 - i by omega]

theorem putBe_inBounds {size : Nat} {buf : Buf} (h : buf.InBounds size) (off q x : Nat) (hle : off + q ≤ size) :
    (putBe buf off q x).InBounds size := by
  refine List.foldlRecOn _ _ h fun b hb i hi => ?_
  have hi' := List.mem_range.mp hi
  refine hb.write _ _ ?_
  simp only [List.length_singleton]
  omega

/-! ### Padding -/

theorem padTo16_holds (buf : Buf) (off : Nat) (l : List Byte) (h : buf.Holds l) (hl : l.length = off) :
    (padTo16 buf off).1.Holds (pad16 l) ∧ (padTo16 buf off).2 = (pad16 l).length := by
  fun_induction padTo16 buf off generalizing l with
  | case1 buf off h0 =>
    have hpad : pad16 l = l := by
      rw [pad16, show (16 - l.length % 16) % 16 = 0 by omega]
      exact List.append_nil l
    rw [hpad]
    exact ⟨h, hl.symm⟩
  | case2 buf off h0 ih =>
    have hpad : pad16 (l ++ [0#8]) = pad16 l := by
      rw [pad16, pad16, List.append_assoc, List.length_append, List.length_singleton,
        show (16 - l.length % 16) % 16 = 1 + (16 - (l.length + 1) % 16) % 16 by omega, zeros, zeros,
        List.replicate_add]
      rfl
    rw [← hpad]
    subst hl
    exact ih (l ++ [0#8]) (h.write [0#8]) (by simp)

theorem padTo16_off (buf : Buf) (off : Nat) : (padTo16 buf off).2 = round16 off := by
  fun_induction padTo16 buf off with
  | case1 buf off h0 =>
    simp only [round16]
    omega
  | case2 buf off h0 ih =>
    simp only [round16] at ih ⊢
    omega

theorem padTo16_inBounds (size : Nat) (buf : Buf) (off : Nat) (h : buf.InBounds size)
    (hle : round16 off ≤ size) : (padTo16 buf off).1.InBounds size := by
  fun_induction padTo16 buf off with
  | case1 => exact h
  | case2 buf off h0 ih =>
    simp only [round16] at hle ih
    exact ih (h.write _ _ (by simp only [List.length_singleton]; omega)) (by omega)

/-! ### The MAC input -/

theorem putAd_holds {buf : Buf} {l : List Byte} (h : buf.Holds l) (hl : l.length % 16 = 0) (off : Nat)
    (hoff : off = l.length) (ad : List Byte) (had : ad.length < 0xff00) :
    (putAd buf off ad).1.Holds (l ++ pad16 (Ccm.adLength ad.length ++ ad)) ∧
      (putAd buf off ad).2 = (l ++ pad16 (Ccm.adLength ad.length ++ ad)).length := by
  unfold putAd Ccm.adLength
  by_cases h0 : 0 < ad.length
  · simp only [if_neg (show ¬ ad.length = 0 by omega), if_pos had, if_pos h0]
    have hbe : [BitVec.ofNat 8 (ad.length >>> 8)] ++ [BitVec.ofNat 8 ad.length] = beBytes 2 ad.length := rfl
    have hlength := (h.writeAt off hoff [BitVec.ofNat 8 (ad.length >>> 8)]).writeAt (off + 1) (by simp [hoff])
      [BitVec.ofNat 8 ad.length]
    rw [List.append_assoc, hbe] at hlength
    have hdata := hlength.writeAt (off + 2) (by simp [hoff]) ad
    have hpad := padTo16_holds _ (off + 2 + ad.length) _ hdata (by simp [hoff]; omega)
    rwa [List.append_assoc, pad16_append l _ hl] at hpad
  · have hnil : ad = [] := List.length_eq_zero_iff.mp (by omega)
    subst hnil
    have hpad : l ++ pad16 ([] ++ []) = l := List.append_nil l
    rw [if_neg h0, if_pos List.length_nil, hpad]
    exact ⟨h, hoff⟩

/-- The flags byte adds up because its fields do not overlap. -/
theorem b0Flags_eq (ivLen adLen tagLen : Nat) (hiv : 7 ≤ ivLen ∧ ivLen ≤ 13) (htag : 4 ≤ tagLen ∧ tagLen ≤ 16) :
    b0Flags ivLen adLen tagLen = Ccm.flags ivLen adLen tagLen := by
  obtain ⟨h1, h2⟩ := hiv
  obtain ⟨h3, h4⟩ := htag
  unfold b0Flags Ccm.flags
  by_cases had : 0 < adLen
  · simp only [if_pos had]
    interval_cases ivLen <;> interval_cases tagLen <;> rfl
  · simp only [if_neg had]
    interval_cases ivLen <;> interval_cases tagLen <;> rfl

/-- **The staging area holds the MAC input of the standard.** -/
theorem buildMacInput_holds (buf : Buf) (iv ad pt : List Byte) (tagLen : Nat) (hiv : 7 ≤ iv.length ∧ iv.length ≤ 13)
    (htag : 4 ≤ tagLen ∧ tagLen ≤ 16) (had : ad.length < 0xff00) :
    (buildMacInput buf iv ad pt tagLen).1.Holds (Ccm.macInput iv ad pt tagLen) ∧
      (buildMacInput buf iv ad pt tagLen).2 = (Ccm.macInput iv ad pt tagLen).length := by
  have hflags := (Buf.holds_nil buf).writeAt 0 rfl [b0Flags iv.length ad.length tagLen]
  have hnonce := hflags.writeAt 1 rfl iv
  have hlength := putBe_holds hnonce (1 + iv.length) (15 - iv.length) pt.length (by simp; omega)
  have hb0 : [] ++ [b0Flags iv.length ad.length tagLen] ++ iv ++ beBytes (15 - iv.length) pt.length =
      Ccm.b0 iv ad.length pt.length tagLen := by
    rw [b0Flags_eq _ _ _ hiv htag, Ccm.b0, List.nil_append, List.singleton_append, List.cons_append]
  have hlen : (Ccm.b0 iv ad.length pt.length tagLen).length = 16 := by
    simp [Ccm.b0]
    omega
  rw [hb0] at hlength
  obtain ⟨had', hoff⟩ := putAd_holds hlength (by rw [hlen]) (1 + iv.length + (15 - iv.length)) (by rw [hlen]; omega) ad had
  unfold buildMacInput Ccm.macInput
  dsimp only
  generalize putAd _ (1 + iv.length + (15 - iv.length)) ad = r at had' hoff ⊢
  by_cases h0 : 0 < pt.length
  · rw [if_pos h0]
    have hpad := padTo16_holds _ (r.2 + pt.length) _ (had'.writeAt r.2 hoff pt) (by rw [List.length_append, hoff])
    rwa [pad16_append _ _ (by rw [List.length_append, hlen, length_pad16]; omega)] at hpad
  · have hnil : pt = [] := List.length_eq_zero_iff.mp (by omega)
    rw [if_neg h0, hnil, show pad16 [] = [] from rfl, List.append_nil]
    exact ⟨hnil ▸ had', hnil ▸ hoff⟩

theorem length_macInput (iv ad pt : List Byte) (tagLen : Nat) (hiv : iv.length ≤ 13) :
    (Ccm.macInput iv ad pt tagLen).length =
      16 + round16 (Ccm.adLength ad.length ++ ad).length + round16 pt.length := by
  simp only [Ccm.macInput, Ccm.b0, List.length_append, List.length_cons, length_beBytes, length_pad16, round16]
  omega

theorem putAd_inBounds {size : Nat} {buf : Buf} (h : buf.InBounds size) (off : Nat) (ad : List Byte)
    (had : ad.length < 0xff00) (hoff : off % 16 = 0) (hle : off + round16 (2 + ad.length) ≤ size) :
    (putAd buf off ad).1.InBounds size := by
  unfold putAd
  simp only [round16] at hle
  by_cases h0 : 0 < ad.length
  · simp only [if_pos h0, if_pos had]
    refine padTo16_inBounds size _ _ (Buf.InBounds.write (.write (h.write _ _ ?_) _ _ ?_) _ _ ?_) ?_
    · simp only [List.length_singleton]
      omega
    · simp only [List.length_singleton]
      omega
    · omega
    · simp only [round16]
      omega
  · rw [if_neg h0]
    exact h

theorem putAd_off (buf : Buf) (off : Nat) (ad : List Byte) (had : ad.length < 0xff00) (hoff : off % 16 = 0) :
    (putAd buf off ad).2 % 16 = 0 ∧ (putAd buf off ad).2 ≤ off + round16 (2 + ad.length) := by
  unfold putAd
  by_cases h0 : 0 < ad.length
  · simp only [if_pos h0, if_pos had, padTo16_off, round16]
    omega
  · rw [if_neg h0]
    exact ⟨hoff, Nat.le_add_right ..⟩

/-- The stores stay within the part of the staging area that was cleared. -/
theorem buildMacInput_inBounds {size : Nat} {buf : Buf} (h : buf.InBounds size) (iv ad pt : List Byte) (tagLen : Nat)
    (hiv : iv.length ≤ 13) (had : ad.length < 0xff00) (hle : macStaging ad.length pt.length ≤ size) :
    (buildMacInput buf iv ad pt tagLen).1.InBounds size := by
  unfold buildMacInput
  simp only [macStaging, round16] at hle
  have hb0 : (putBe ((buf.write 0 [b0Flags iv.length ad.length tagLen]).write 1 iv) (1 + iv.length)
      (15 - iv.length) pt.length).InBounds size := by
    refine putBe_inBounds (.write (h.write _ _ ?_) _ _ ?_) _ _ _ ?_
    · simp only [List.length_singleton]
      omega
    · omega
    · omega
  have hoff : (1 + iv.length + (15 - iv.length)) % 16 = 0 := by omega
  have hin := putAd_inBounds hb0 _ ad had hoff (by simp only [round16]; omega)
  have hend := putAd_off (putBe ((buf.write 0 [b0Flags iv.length ad.length tagLen]).write 1 iv) (1 + iv.length)
    (15 - iv.length) pt.length) _ ad had hoff
  dsimp only
  generalize putAd _ (1 + iv.length + (15 - iv.length)) ad = r at hin hend ⊢
  simp only [round16] at hend
  split
  · refine padTo16_inBounds size _ _ (hin.write _ _ ?_) ?_
    · omega
    · simp only [round16]
      omega
  · exact hin

/-! ### The counter blocks -/

theorem ccmBuildCtrBlocks_holds (ctr : Buf) (iv : List Byte) (hiv : 7 ≤ iv.length ∧ iv.length ≤ 13) (n : Nat) :
    (ccmBuildCtrBlocks ctr iv n).Holds (ofBlocks ((List.range n).map fun i => Ccm.counter iv (i + 1))) := by
  induction n with
  | zero => exact Buf.holds_nil ctr
  | succ n ih =>
    have hlen : (ofBlocks ((List.range n).map fun i => Ccm.counter iv (i + 1))).length = n * 16 := by
      rw [length_ofBlocks, List.length_map, List.length_range, Nat.mul_comm]
    have hflags := ih.writeAt (n * 16) hlen.symm [BitVec.ofNat 8 (15 - iv.length - 1)]
    have hnonce := hflags.writeAt (n * 16 + 1) (by simp [hlen]) iv
    have hcount := putBe_holds hnonce (n * 16 + 1 + iv.length) (15 - iv.length) (n + 1) (by simp [hlen]; omega)
    have hblock : (Ccm.counter iv (n + 1)).toList =
        [BitVec.ofNat 8 (15 - iv.length - 1)] ++ iv ++ beBytes (15 - iv.length) (n + 1) := by
      rw [Ccm.counter, Block.toList_ofList _ (by simp; omega), List.singleton_append, List.cons_append]
    rw [List.range_succ, List.map_append, ofBlocks_append, List.map_singleton, ofBlocks_cons, ofBlocks_nil,
      List.append_nil, hblock, ← List.append_assoc, ← List.append_assoc]
    exact hcount

/-- The counter blocks of a record. -/
def ccmCounters (iv : List Byte) (length : Nat) : List Byte :=
  ofBlocks ((List.range ((length + 15) / 16)).map fun i => Ccm.counter iv (i + 1))

theorem read_counters (ctr : Buf) (iv : List Byte) (hiv : 7 ≤ iv.length ∧ iv.length ≤ 13) (length : Nat) :
    (ccmBuildCtrBlocks ctr iv ((length + 15) / 16)).read 0 ((length + 15) / 16 * 16) = ccmCounters iv length := by
  have hholds := ccmBuildCtrBlocks_holds ctr iv hiv ((length + 15) / 16)
  rwa [Buf.Holds, length_ofBlocks, List.length_map, List.length_range, Nat.mul_comm] at hholds

theorem ccmBuildCtrBlocks_inBounds {size : Nat} {ctr : Buf} (h : ctr.InBounds size) (iv : List Byte)
    (hiv : 7 ≤ iv.length ∧ iv.length ≤ 13) (n : Nat) (hn : n * 16 ≤ size) :
    (ccmBuildCtrBlocks ctr iv n).InBounds size := by
  induction n with
  | zero => exact h
  | succ n ih =>
    refine putBe_inBounds (.write (.write (ih (by omega)) _ _ ?_) _ _ ?_) _ _ _ ?_
    · simp only [List.length_singleton]
      omega
    · omega
    · omega

theorem buildCtr0_eq (iv : List Byte) : buildCtr0 iv = Ccm.counter iv 0 := by
  rw [buildCtr0, Ccm.counter, beBytes_zero]

end Thingino.Crypto
