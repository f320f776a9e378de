import Thingino.Crypto.Streaming

/-! What the byte-wise modes compute.

The OFB and CTR loops do not look at their input but to add a byte of a keystream to it.
From a block boundary on the keystream is the cipher over a sequence of blocks: for CTR the
counter and its successors, for OFB the vector and what the cipher makes of it again and
again. A call is therefore the counter mode of the library over that sequence
(`ofb_eq_ctrMode`, `ctr_eq_ctrMode`). The two CFB loops are cipher feedback with segments of
a byte (`cfb8_eq_cfbEncrypt`) and of a block (`cfb128_eq_cfbEncrypt`). Calls in a row are
one call, so all of this holds of them too. -/
namespace Thingino.Crypto
open Lib

section Places
variable {E : Block → Block}

/-- OFB after `i` bytes from a block boundary. -/
structure OfbAt (E : Block → Block) (iv : Block) (i : Nat) (s : IvState) : Prop where
  off : s.ivOff.val = i % 16
  iv : s.iv = E^[(i + 15) / 16] iv

theorem OfbAt.refresh {iv : Block} {i : Nat} {s : IvState} (h : OfbAt E iv i s) : refresh E s = E (E^[i / 16] iv) := by
  by_cases h0 : s.ivOff.val = 0
  · have hi : (i + 15) / 16 = i / 16 := by
      have := h.off
      omega
    rw [Crypto.refresh, if_pos h0, h.iv, hi]
  · have hi : (i + 15) / 16 = i / 16 + 1 := by
      have := h.off
      omega
    rw [Crypto.refresh, if_neg h0, h.iv, hi, Function.iterate_succ_apply']

theorem OfbAt.next {iv : Block} {i : Nat} {s : IvState} (h : OfbAt E iv i s) :
    OfbAt E iv (i + 1) ⟨Crypto.refresh E s, nextOff s.ivOff⟩ := by
  have hi : (i + 1 + 15) / 16 = i / 16 + 1 := by omega
  refine ⟨?_, ?_⟩
  · rw [nextOff_val, h.off]
    omega
  · rw [h.refresh, hi, Function.iterate_succ_apply']

/-- CTR after `i` bytes from a block boundary, `count` stepping the counter. -/
structure CtrAt (E count : Block → Block) (c : Block) (i : Nat) (s : CtrState) : Prop where
  off : s.ncOff.val = i % 16
  counter : s.nonceCounter = count^[(i + 15) / 16] c
  block : i % 16 ≠ 0 → s.streamBlock = E (count^[i / 16] c)

/-- The state once a keystream block is there: what a turn of the CTR loop does before it looks at its byte. -/
def drawn (E : Block → Block) (s : CtrState) : CtrState :=
  if s.ncOff.val = 0 then
    { s with
      streamBlock := E s.nonceCounter
      nonceCounter := incrementCounter s.nonceCounter 16 }
  else s

theorem drawn_ncOff (s : CtrState) : (drawn E s).ncOff = s.ncOff := by
  unfold drawn
  split <;> rfl

theorem CtrAt.drawn {c : Block} {i : Nat} {s : CtrState} (h : CtrAt E (incrementCounter · 16) c i s) :
    (drawn E s).streamBlock = E ((incrementCounter · 16)^[i / 16] c) ∧
      (drawn E s).nonceCounter = (incrementCounter · 16)^[i / 16 + 1] c := by
  have hoff := h.off
  by_cases h0 : s.ncOff.val = 0
  · have hi : (i + 15) / 16 = i / 16 := by omega
    rw [Crypto.drawn, if_pos h0, h.counter, hi]
    refine ⟨rfl, ?_⟩
    rw [Function.iterate_succ_apply']
  · have hi : (i + 15) / 16 = i / 16 + 1 := by omega
    rw [Crypto.drawn, if_neg h0, h.counter, hi]
    exact ⟨h.block (by omega), rfl⟩

theorem CtrAt.next {c : Block} {i : Nat} {s : CtrState} (h : CtrAt E (incrementCounter · 16) c i s) :
    CtrAt E (incrementCounter · 16) c (i + 1) { Crypto.drawn E s with ncOff := nextOff s.ncOff } := by
  have hoff := h.off
  obtain ⟨hblock, hcounter⟩ := h.drawn
  have hi : (i + 1 + 15) / 16 = i / 16 + 1 := by omega
  refine ⟨?_, ?_, fun hne => ?_⟩
  · rw [nextOff_val, hoff]
    omega
  · rw [hi]
    exact hcounter
  · have hsame : (i + 1) / 16 = i / 16 := by omega
    rw [hsame]
    exact hblock

end Places

/-- **OFB from a block boundary**: the vector enciphered again and again, added to the input. -/
theorem ofb_eq_ctrMode (ctx : AesContext) (s : IvState) (input : List Byte) (h : s.ivOff.val = 0) :
    (mbedtlsAesCryptOfb ctx s input).output =
      ctrMode (swEncryptBlock ctx.rk ctx.nr) (fun i => (swEncryptBlock ctx.rk ctx.nr)^[i] s.iv) input := by
  generalize hE : swEncryptBlock ctx.rk ctx.nr = E
  let pad (t : IvState) : Byte := (refresh E t)[t.ivOff]
  let next (t : IvState) : IvState := ⟨refresh E t, nextOff t.ivOff⟩
  have hat (i : Nat) : OfbAt E s.iv i (next^[i] s) := by
    induction i with
    | zero => exact ⟨h, rfl⟩
    | succ i ih =>
      rw [Function.iterate_succ_apply']
      exact ih.next
  have hpad (i : Nat) : pad (next^[i] s) = (E (E^[i / 16] s.iv)).getD (i % 16) 0#8 := by
    simp only [pad, (hat i).refresh, Fin.getElem_fin, (hat i).off]
    exact (getD_eq_getElem _ _ _ (Nat.mod_lt _ (by decide))).symm
  rw [ctrMode_eq, mbedtlsAesCryptOfb, hE]
  refine (transduce_pad (ofbBody E) (· ^^^ ·) pad next (fun _ _ => rfl) s input).trans ?_
  exact congrArg (xorBytes input) (List.map_congr_left fun i _ => hpad i)

/-- **CTR from a block boundary**: the counter and its successors enciphered, added to the input. -/
theorem ctr_eq_ctrMode (ctx : AesContext) (s : CtrState) (input : List Byte) (h : s.ncOff.val = 0) :
    (mbedtlsAesCryptCtr ctx s input).output =
      ctrMode (swEncryptBlock ctx.rk ctx.nr) (fun i => (incrementCounter · 16)^[i] s.nonceCounter) input := by
  generalize hE : swEncryptBlock ctx.rk ctx.nr = E
  let pad (t : CtrState) : Byte := (drawn E t).streamBlock[(drawn E t).ncOff]
  let next (t : CtrState) : CtrState := { drawn E t with ncOff := nextOff (drawn E t).ncOff }
  have hat (i : Nat) : CtrAt E (incrementCounter · 16) s.nonceCounter i (next^[i] s) := by
    induction i with
    | zero => exact ⟨h, rfl, fun hne => absurd rfl hne⟩
    | succ i ih =>
      have hnext := ih.next
      rw [← drawn_ncOff (E := E)] at hnext
      rw [Function.iterate_succ_apply']
      exact hnext
  have hpad (i : Nat) :
      pad (next^[i] s) = (E ((incrementCounter · 16)^[i / 16] s.nonceCounter)).getD (i % 16) 0#8 := by
    simp only [pad, (hat i).drawn.1, drawn_ncOff, Fin.getElem_fin, (hat i).off]
    exact (getD_eq_getElem _ _ _ (Nat.mod_lt _ (by decide))).symm
  rw [ctrMode_eq, mbedtlsAesCryptCtr, hE]
  refine (transduce_pad (ctrBody E) (· ^^^ ·) pad next (fun _ _ => rfl) s input).trans ?_
  exact congrArg (xorBytes input) (List.map_congr_left fun i _ => hpad i)

/-! ### Cipher feedback -/

section Feedback
variable {E : Block → Block}

theorem xorBytes_singleton (x : Byte) (b : Block) : xorBytes [x] b.toList = [x ^^^ b.getD 0 0#8] := by
  have hb : b.toList = b.getD 0 0#8 :: b.toList.drop 1 := by
    have hget : b.toList[0]? = some (b.getD 0 0#8) := by simp [getD_eq_getElem]
    rw [← List.head?_eq_getElem?] at hget
    rw [List.drop_one, ← List.eq_cons_of_mem_head? hget]
  rw [hb, xorBytes_cons]
  rfl

theorem transduce_cfb8 (iv : Block) (input : List Byte) :
    (transduce (cfb8Body E .encrypt) iv input).1 = (cfbEncrypt E iv (input.map fun x => [x])).flatten := by
  induction input generalizing iv with
  | nil => rfl
  | cons x input ih =>
    have hl : iv.toList.length = 16 := Vector.length_toList
    have hstep : cfb8Body E .encrypt iv x =
        (x ^^^ (E iv).getD 0 0#8, Block.ofList (iv.toList.drop 1 ++ [x ^^^ (E iv).getD 0 0#8])) := by
      simp only [cfb8Body, List.drop_append_of_le_length (show 1 ≤ iv.toList.length by omega)]
    rw [transduce_cons, hstep, ih, List.map_cons, cfbEncrypt_cons, xorBytes_singleton, List.flatten_cons]
    rfl

/-- **CFB8**: every byte a segment. -/
theorem cfb8_eq_cfbEncrypt (ctx : AesContext) (iv : Block) (input : List Byte) :
    (mbedtlsAesCryptCfb8 ctx .encrypt iv input).output =
      (cfbEncrypt (swEncryptBlock ctx.rk ctx.nr) iv (input.map fun x => [x])).flatten := transduce_cfb8 iv input

theorem toList_set (v : Block) (k : Nat) (hk : k < 16) (c : Byte) :
    (v.set k c).toList = v.toList.take k ++ c :: v.toList.drop (k + 1) := by
  rw [Vector.toList_set, List.set_eq_take_append_cons_drop, if_pos (by rw [Vector.length_toList]; exact hk)]

/-- Within a block: the ciphertext takes the place of the keystream it was made with. -/
theorem transduce_cfb128 (x : Byte) (input : List Byte) (s : IvState) (hfit : s.ivOff.val + (x :: input).length ≤ 16) :
    let v := refresh E s
    let r := transduce (cfb128Body E .encrypt) s (x :: input)
    r.1 = xorBytes (x :: input) (v.toList.drop s.ivOff.val) ∧
      r.2.iv.toList = v.toList.take s.ivOff.val ++ (r.1 ++ v.toList.drop (s.ivOff.val + (x :: input).length)) ∧
      r.2.ivOff.val = (s.ivOff.val + (x :: input).length) % 16 := by
  have hl (b : Block) : b.toList.length = 16 := Vector.length_toList
  induction input generalizing x s with
  | nil =>
    intro v r
    have hcell : v.toList.drop s.ivOff.val = v[s.ivOff] :: v.toList.drop (s.ivOff.val + 1) :=
      List.drop_eq_getElem_cons (by rw [hl]; exact s.ivOff.isLt)
    refine ⟨?_, toList_set v _ s.ivOff.isLt _, nextOff_val s.ivOff⟩
    rw [hcell]
    rfl
  | cons y input ih =>
    intro v r
    have hk : s.ivOff.val + 1 < 16 := by
      simp only [List.length_cons] at hfit
      omega
    have hcell : v.toList.drop s.ivOff.val = v[s.ivOff] :: v.toList.drop (s.ivOff.val + 1) :=
      List.drop_eq_getElem_cons (by rw [hl]; exact s.ivOff.isLt)
    let c := x ^^^ v[s.ivOff]
    let t : IvState := ⟨v.set s.ivOff c, nextOff s.ivOff⟩
    have hoff : t.ivOff.val = s.ivOff.val + 1 := (nextOff_val s.ivOff).trans (Nat.mod_eq_of_lt hk)
    have hv : refresh E t = v.set s.ivOff c := if_neg (by rw [hoff]; exact Nat.succ_ne_zero _)
    have hdrop (j : Nat) (hj : s.ivOff.val < j) : (v.set s.ivOff c).toList.drop j = v.toList.drop j := by
      rw [Vector.toList_set, List.drop_set_of_lt hj]
    have htake : (v.set s.ivOff c).toList.take (s.ivOff.val + 1) = v.toList.take s.ivOff.val ++ [c] := by
      rw [Vector.toList_set, List.take_add_one, List.take_set_of_le (Nat.le_refl _),
        List.getElem?_set_self (by rw [hl]; exact s.ivOff.isLt), Option.toList_some]
    obtain ⟨hout, hiv, hend⟩ := ih y t (by rw [hoff]; simp only [List.length_cons] at hfit ⊢; omega)
    rw [hv, hoff, hdrop _ (Nat.lt_succ_self _)] at hout
    rw [hv, hoff, hdrop _ (by simp only [List.length_cons]; omega), htake] at hiv
    rw [hoff] at hend
    have hcount : s.ivOff.val + 1 + (y :: input).length = s.ivOff.val + (x :: y :: input).length := by
      simp only [List.length_cons]
      omega
    rw [hcount] at hiv hend
    have hr : r = (c :: (transduce (cfb128Body E .encrypt) t (y :: input)).1,
        (transduce (cfb128Body E .encrypt) t (y :: input)).2) := rfl
    refine ⟨?_, ?_, ?_⟩
    · rw [hr, hcell, hout]
      rfl
    · rw [hr, hiv, List.append_assoc]
      rfl
    · rw [hr, hend]

/-- A whole block from a block boundary: its ciphertext becomes the vector. -/
theorem transduce_cfb128_block (b : List Byte) (s : IvState) (h : s.ivOff.val = 0) (hb : b.length = 16) :
    let r := transduce (cfb128Body E .encrypt) s b
    r.1 = xorBytes b (E s.iv).toList ∧ r.2.iv.toList = r.1 ∧ r.2.ivOff.val = 0 := by
  obtain ⟨x, input, rfl⟩ := List.exists_cons_of_length_pos (by rw [hb]; decide : 0 < b.length)
  have hv : refresh E s = E s.iv := if_pos h
  obtain ⟨hout, hiv, hend⟩ := transduce_cfb128 x input s (by omega)
  rw [hv, h, List.drop_zero] at hout
  rw [hv, h, hb, List.take_zero, List.nil_append, List.drop_eq_nil_of_le (by rw [Vector.length_toList]),
    List.append_nil] at hiv
  rw [h, hb] at hend
  exact ⟨hout, hiv, hend⟩

/-- **CFB128** over whole blocks, from a block boundary. -/
theorem cfb128_eq_cfbEncrypt (ctx : AesContext) (s : IvState) (blocks : List (List Byte)) (h : s.ivOff.val = 0)
    (hblocks : ∀ b ∈ blocks, b.length = 16) :
    (mbedtlsAesCryptCfb128 ctx .encrypt s blocks.flatten).output =
      (cfbEncrypt (swEncryptBlock ctx.rk ctx.nr) s.iv blocks).flatten := by
  generalize hE : swEncryptBlock ctx.rk ctx.nr = E
  rw [mbedtlsAesCryptCfb128, hE]
  change (transduce (cfb128Body E .encrypt) s blocks.flatten).1 = _
  induction blocks generalizing s with
  | nil => rfl
  | cons b blocks ih =>
    obtain ⟨hb, hrest⟩ := List.forall_mem_cons.mp hblocks
    obtain ⟨hout, hiv, hend⟩ := transduce_cfb128_block b s h hb
    have hregister : Block.ofList (s.iv.toList.drop (xorBytes b (E s.iv).toList).length ++ xorBytes b (E s.iv).toList) =
        (transduce (cfb128Body E .encrypt) s b).2.iv := by
      have hlen : (xorBytes b (E s.iv).toList).length = 16 := by simp [hb]
      rw [hlen, List.drop_eq_nil_of_le (by rw [Vector.length_toList]), List.nil_append, ← hout, ← hiv,
        Block.ofList_toList]
    rw [List.flatten_cons, transduce_append, cfbEncrypt_cons, List.flatten_cons, hregister, ih _ hend hrest, hout]

end Feedback

end Thingino.Crypto
