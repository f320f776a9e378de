import Thingino.Crypto.GcmAlt
import Thingino.Crypto.WorkingEngine

/-! Bulk ECB: the keystream of both authenticated modes.

`sw_ecb_bulk` and a finished `hw_ecb_bulk` leave the same bytes (`swEcbBulk_read`,
`hwEcbBulk_read`), provided that the packed key of the request and the round keys of
the software cipher stand for one key. What a failed request leaves is not known,
except that it starts at the beginning and is no longer than what was asked for. -/
namespace Thingino.Crypto
open Lib

/-- The packed key belongs to `key`; the words past it are free. -/
def HwKeyed (hwKey : Vector Word 8) (key : Nat → Byte) (keybits : Nat) : Prop :=
  ∀ i (h : i < 8), i < keybits / 32 → hwKey[i] = load32Be fun j => key (4 * i + j)

theorem hwKeyed_packKey (key : Nat → Byte) (keybits : Nat) (out : Vector Word 8) :
    HwKeyed (packKey key (keybits / 32) out) key keybits := by
  intro i h hi
  rw [packKey_getElem, if_pos hi, Nat.mul_comm]

theorem ecbRequest_carries {hwKey : Vector Word 8} {key : Nat → Byte} {keybits : Nat}
    (hk : keybits = 128 ∨ keybits = 192 ∨ keybits = 256) (h : HwKeyed hwKey key keybits) (src : List Byte) :
    (ecbRequest hwKey keybits src).Carries key keybits := by
  refine ⟨hk, .inl rfl, rfl, fun i hi hi' => ?_⟩
  simp only [ecbRequest, requestKey, Vector.getElem_ofFn, if_pos hi', Fin.getElem_fin]
  exact h i hi hi'

theorem load32Be_zero : (load32Be fun _ => 0#8) = 0#32 := by decide

/-- The zeroed vector of a request is the zero block. -/
theorem carriesIv_zero (p : JzAesPara) (h : p.aesiv = Vector.replicate 4 0#32) : p.CarriesIv Block.zero := by
  intro i hi
  have hz : (fun j => Block.zero.toList.getD (4 * i + j) 0#8) = fun _ => 0#8 := by
    funext j
    simp only [Block.toList_zero, zeros, List.getD_eq_getElem?_getD, List.getElem?_replicate]
    split <;> rfl
  rw [h, hz, load32Be_zero]
  simp

section Bulk
variable {ω : Type} {dev : Device ω}

/-- The software loop ends well and leaves `E` of each block, in order. -/
theorem swEcbBulk_eq (aes : AesContext) (inp out : Buf) (n : Nat) :
    (swEcbBulk aes inp out n).1 = .ok ∧
      (swEcbBulk aes inp out n).2.read 0 (n * 16) =
        ofBlocks ((List.range n).map fun i => swEncryptBlock aes.rk aes.nr (Block.ofList (inp.read (i * 16) 16))) := by
  induction n with
  | zero => exact ⟨rfl, rfl⟩
  | succ n ih =>
    obtain ⟨hret, hread⟩ := ih
    have heq : swEcbBulk aes inp out n = (.ok, (swEcbBulk aes inp out n).2) := Prod.ext hret rfl
    rw [swEcbBulk, heq]
    refine ⟨rfl, ?_⟩
    simp only [mbedtlsAesCryptEcb]
    rw [Nat.add_mul, Nat.one_mul, Buf.read_add, Buf.read_write_before _ _ _ _ _ (by omega), hread, Nat.zero_add,
      Buf.read_write_of_length _ _ _ _ Vector.length_toList, List.range_succ, List.map_append, ofBlocks_append, List.map_singleton, ofBlocks_cons, ofBlocks_nil,
      List.append_nil]

/-- **The software keystream**, for a buffer that starts with the blocks `cs`. -/
theorem swEcbBulk_read {aes : AesContext} {key : Nat → Byte} {keybits : Nat} (h : aes.Keyed key keybits)
    {inp : Buf} (cs : List Block) (hin : inp.Holds (ofBlocks cs)) (out : Buf) :
    (swEcbBulk aes inp out cs.length).1 = .ok ∧
      (swEcbBulk aes inp out cs.length).2.read 0 (cs.length * 16) = ofBlocks (cs.map (aesEncrypt key keybits)) := by
  obtain ⟨hret, hread⟩ := swEcbBulk_eq aes inp out cs.length
  refine ⟨hret, ?_⟩
  have hblocks : (List.range cs.length).map (fun i => Block.ofList (inp.read (i * 16) 16)) = cs := by
    have hcs := toBlocks_ofBlocks cs
    rw [toBlocks, length_ofBlocks, show (16 * cs.length + 15) / 16 = cs.length by omega] at hcs
    conv_rhs => rw [← hcs]
    apply List.map_congr_left
    intro i hi
    have hi' := List.mem_range.mp hi
    rw [hin.read (i * 16) 16 (by rw [length_ofBlocks]; omega), Block.ofList_take, Nat.mul_comm]
  have henc : swEncryptBlock aes.rk aes.nr = aesEncrypt key keybits := by
    funext b
    rw [swEncryptBlock_congr h.schedule, aesEncrypt, h.rounds]
  rw [hread, henc]
  conv_rhs => rw [← hblocks, List.map_map]
  rfl

/-- **The engine's keystream**, when it finishes. -/
theorem hwEcbBulk_read (hdev : dev.ComputesAes) {hwKey : Vector Word 8} {key : Nat → Byte} {keybits : Nat}
    (hk : keybits = 128 ∨ keybits = 192 ∨ keybits = 256) (h : HwKeyed hwKey key keybits) {inp : Buf}
    (cs : List Block) (hin : inp.Holds (ofBlocks cs)) (out : Buf) (p : Proc ω)
    (hok : (hwEcbBulk dev hwKey keybits inp cs.length out p).1 = .ok) :
    (hwEcbBulk dev hwKey keybits inp cs.length out p).2.1.read 0 (cs.length * 16) =
      ofBlocks (cs.map (aesEncrypt key keybits)) := by
  revert hok
  unfold hwEcbBulk
  by_cases h0 : cs.length = 0
  · rw [List.length_eq_zero_iff.mp h0]
    intro _
    rfl
  · rw [if_neg h0]
    have hsrc : inp.read 0 (cs.length * 16) = ofBlocks cs := by
      have := hin
      rwa [Buf.Holds, length_ofBlocks, Nat.mul_comm] at this
    have hlen : (ofBlocks cs).length = cs.length * 16 := by
      rw [length_ofBlocks, Nat.mul_comm]
    dsimp only
    rw [hsrc]
    intro hok
    have hd : done (dev.ioctl p.world (ecbRequest hwKey keybits (ofBlocks cs))).1 (cs.length * 16) := by
      by_contra hd
      rw [if_neg hd] at hok
      cases hok
    have hdata : (ecbRequest hwKey keybits (ofBlocks cs)).datalen.toNat = (ofBlocks cs).length := by
      simp only [ecbRequest, BitVec.toNat_ofNat, hlen]
      apply Nat.mod_eq_of_lt
      rw [← hd.2]
      exact (dev.ioctl p.world (ecbRequest hwKey keybits (ofBlocks cs))).1.donelen.isLt
    have hmoved := hdev p.world _ key keybits Block.zero (ecbRequest_carries hk h (ofBlocks cs))
      (carriesIv_zero _ rfl) (by simp [ecbRequest]) hdata (by simpa only [ecbRequest, hlen] using hd)
    have hans : (ecbRequest hwKey keybits (ofBlocks cs)).answer key keybits Block.zero =
        ofBlocks (cs.map (aesEncrypt key keybits)) := ecb_ofBlocks _ cs
    have hself := Buf.read_write_self out 0 (ofBlocks (cs.map (aesEncrypt key keybits)))
    rw [length_ofBlocks, List.length_map, Nat.mul_comm] at hself
    rw [hmoved, hans, hself]

/-- An engine that never stops short finishes every keystream a request can ask for. -/
theorem hwEcbBulk_ok (hdev : dev.AlwaysDone) (hwKey : Vector Word 8) (keybits : Nat) (inp : Buf) (n : Nat)
    (hn : n * 16 < 2 ^ 32) (out : Buf) (p : Proc ω) : (hwEcbBulk dev hwKey keybits inp n out p).1 = .ok := by
  unfold hwEcbBulk
  split
  · rfl
  · have hd := hdev p.world (ecbRequest hwKey keybits (inp.read 0 (n * 16)))
    have hdata : (ecbRequest hwKey keybits (inp.read 0 (n * 16))).datalen.toNat = n * 16 := by
      simp only [ecbRequest, BitVec.toNat_ofNat, Buf.length_read]
      exact Nat.mod_eq_of_lt hn
    rw [hdata] at hd
    exact if_pos hd

/-- Only the engine's side can fail, and it does when the request is not done. -/
theorem ecbBulk_ok_iff (dev : Device ω) (hw : Bool) (hwKey : Vector Word 8) (keybits : Nat) (aes : AesContext) (inp : Buf) (n : Nat)
    (hn : n ≠ 0) (out : Buf) (p : Proc ω) :
    (ecbBulk dev hw hwKey keybits aes inp n out p).1 = .ok ↔
      (hw = true → done (dev.ioctl p.world (ecbRequest hwKey keybits (inp.read 0 (n * 16)))).1 (n * 16)) := by
  cases hw with
  | false => exact ⟨fun _ h => Bool.noConfusion h, fun _ => (swEcbBulk_eq aes inp out n).1⟩
  | true =>
    simp only [ecbBulk, if_true, hwEcbBulk, if_neg hn, true_imp_iff]
    constructor
    · intro h
      by_contra hd
      rw [if_neg hd] at h
      cases h
    · exact fun hd => if_pos hd

theorem ecbBulk_ok (hdev : dev.AlwaysDone) (hw : Bool) (hwKey : Vector Word 8) (keybits : Nat) (aes : AesContext)
    (inp : Buf) (n : Nat) (hn : n * 16 < 2 ^ 32) (out : Buf) (p : Proc ω) :
    (ecbBulk dev hw hwKey keybits aes inp n out p).1 = .ok := by
  cases hw
  · exact (swEcbBulk_eq aes inp out n).1
  · exact hwEcbBulk_ok hdev hwKey keybits inp n hn out p

/-- **One keystream**: whichever side made it. -/
theorem ecbBulk_read (hdev : dev.ComputesAes) (hw : Bool) {hwKey : Vector Word 8} {aes : AesContext}
    {key : Nat → Byte} {keybits : Nat} (ha : aes.Keyed key keybits) (hh : HwKeyed hwKey key keybits) {inp : Buf}
    (cs : List Block) (hin : inp.Holds (ofBlocks cs)) (out : Buf) (p : Proc ω)
    (hok : (ecbBulk dev hw hwKey keybits aes inp cs.length out p).1 = .ok) :
    (ecbBulk dev hw hwKey keybits aes inp cs.length out p).2.1.read 0 (cs.length * 16) =
      ofBlocks (cs.map (aesEncrypt key keybits)) := by
  cases hw
  · exact (swEcbBulk_read ha cs hin out).2
  · exact hwEcbBulk_read hdev ha.size hh cs hin out p hok

/-! ### Where bulk ECB writes -/

theorem swEcbBulk_inBounds (aes : AesContext) (inp out : Buf) (n size : Nat) (hn : n * 16 ≤ size)
    (h : out.InBounds size) : (swEcbBulk aes inp out n).2.InBounds size := by
  induction n with
  | zero => exact h
  | succ n ih =>
    obtain ⟨hret, -⟩ := swEcbBulk_eq aes inp out n
    have heq : swEcbBulk aes inp out n = (.ok, (swEcbBulk aes inp out n).2) := Prod.ext hret rfl
    rw [swEcbBulk, heq]
    refine (Buf.inBounds_write _ _ _ _).mpr ⟨fun _ => ?_, ih (by omega)⟩
    rw [Vector.length_toList]
    omega

theorem hwEcbBulk_inBounds (hwKey : Vector Word 8) (keybits : Nat) (inp out : Buf) (n size : Nat)
    (hn : n * 16 ≤ size) (p : Proc ω) (h : out.InBounds size) :
    (hwEcbBulk dev hwKey keybits inp n out p).2.1.InBounds size := by
  unfold hwEcbBulk
  split
  · exact h
  · refine (Buf.inBounds_write _ _ _ _).mpr ⟨fun _ => ?_, h⟩
    have hle : (moved (dev.ioctl p.world (ecbRequest hwKey keybits (inp.read 0 (n * 16)))).1
        (ecbRequest hwKey keybits (inp.read 0 (n * 16)))).length ≤ n * 16 := by
      refine Nat.le_trans (List.length_take_le ..) ?_
      simp only [ecbRequest, BitVec.toNat_ofNat, Buf.length_read]
      exact Nat.mod_le ..
    rw [Nat.zero_add]
    exact Nat.le_trans hle hn

theorem ecbBulk_inBounds (dev : Device ω) (hw : Bool) (hwKey : Vector Word 8) (keybits : Nat) (aes : AesContext) (inp out : Buf)
    (n size : Nat) (hn : n * 16 ≤ size) (p : Proc ω) (h : out.InBounds size) :
    (ecbBulk dev hw hwKey keybits aes inp n out p).2.1.InBounds size := by
  cases hw
  · exact swEcbBulk_inBounds aes inp out n size hn h
  · exact hwEcbBulk_inBounds hwKey keybits inp out n size hn p h

end Bulk

end Thingino.Crypto
