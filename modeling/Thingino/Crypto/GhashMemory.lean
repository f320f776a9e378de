import Thingino.Crypto.GcmCorrect

/-! The hash of `gcm_alt.c` on its own memory.

`gcmMult` and `ghashUpdate` take and give blocks; the code takes pointers, and
`ghash_update` passes `Y` for both the operand and the result. Here the two functions
run on one memory, the operand read byte by byte while the loop goes and the result
stored when it is over: wherever the two lie, the result is the product of the operand
as it was (`gcmMultAt_product`), and a run of `ghash_update` leaves the hash in `Y`. -/
namespace Thingino.Crypto
open Lib

section Memory
variable (ctx : GcmContext)

/-- One turn of the loop of `gcm_mult`, on `x[i]`. -/
def multByteAt (mem : Buf) (x : Nat) (z : BitVec 64 × BitVec 64) (i : Nat) : BitVec 64 × BitVec 64 :=
  let lo := (mem.data (x + i) &&& 0x0F#8).toNat
  let hi := ((mem.data (x + i) >>> 4) &&& 0x0F#8).toNat
  let z := if i ≠ 15 then multNibble ctx z lo else z
  multNibble ctx z hi

/-- `gcm_mult` from the pointer `x` to the pointer `out`. -/
def gcmMultAt (mem : Buf) (x out : Nat) : Buf :=
  let lo := (mem.data (x + 15) &&& 0x0F#8).toNat
  let (zh, zl) := (List.range 16).reverse.foldl (multByteAt ctx mem x) (ctx.HH.getD lo 0#64, ctx.HL.getD lo 0#64)
  (mem.write out (store64Be zh)).write (out + 8) (store64Be zl)

/-- `for (j = 0; j < n; j++) Y[j] ^= block[j]`. -/
def xorInto (mem : Buf) (Y : Nat) (block : List Byte) : Nat → Buf
  | 0 => mem
  | j + 1 =>
    let mem := xorInto mem Y block j
    mem.write (Y + j) [mem.data (Y + j) ^^^ block.getD j 0#8]

/-- A block of the message added to `Y`, the sum multiplied in place. -/
def ghashBlockAt (mem : Buf) (Y : Nat) (block : List Byte) : Buf := gcmMultAt ctx (xorInto mem Y block 16) Y Y

/-- `ghash_update` with the accumulator at the pointer `Y`. -/
def ghashUpdateAt (mem : Buf) (Y : Nat) (data : List Byte) : Buf :=
  let full := data.length / 16
  let mem := (List.range full).foldl (fun mem k => ghashBlockAt ctx mem Y (data.drop (16 * k))) mem
  if 16 * full < data.length then
    -- `block`: zeros, with the tail copied over them
    let tail := data.drop (16 * full)
    ghashBlockAt ctx mem Y (tail ++ zeros (16 - tail.length))
  else mem

end Memory

/-- The 16 bytes at an address. -/
def blockAt (mem : Buf) (addr : Nat) : Block := Block.ofList (mem.read addr 16)

/-- Outside the 16 bytes at `addr` nothing changed. -/
def OnlyAt (addr : Nat) (mem mem' : Buf) : Prop := ∀ i, i < addr ∨ addr + 16 ≤ i → mem'.data i = mem.data i

theorem OnlyAt.trans {addr : Nat} {m₁ m₂ m₃ : Buf} (h : OnlyAt addr m₁ m₂) (h' : OnlyAt addr m₂ m₃) :
    OnlyAt addr m₁ m₃ := Buf.SameOutside.trans h h'

theorem getElem_blockAt (mem : Buf) (addr i : Nat) (h : i < 16) : (blockAt mem addr)[i] = mem.data (addr + i) := by
  rw [blockAt, Block.getElem_ofList]
  simp [Buf.read, List.getD_eq_getElem?_getD, h]

theorem getD_blockAt (mem : Buf) (addr i : Nat) (h : i < 16) : (blockAt mem addr).getD i 0#8 = mem.data (addr + i) := by
  rw [← getElem_blockAt mem addr i h]
  simp [Vector.getD, h]

section Mult
variable (ctx : GcmContext)

theorem multByteAt_eq (mem : Buf) (x : Nat) (z : BitVec 64 × BitVec 64) (i : Nat) (h : i < 16) :
    multByteAt ctx mem x z i = multByte ctx (blockAt mem x) z i := by
  simp only [multByteAt, multByte, getD_blockAt mem x i h]

theorem foldl_multByteAt (mem : Buf) (x : Nat) (is : List Nat) (z : BitVec 64 × BitVec 64) (h : ∀ i ∈ is, i < 16) :
    is.foldl (multByteAt ctx mem x) z = is.foldl (multByte ctx (blockAt mem x)) z := by
  induction is generalizing z with
  | nil => rw [List.foldl_nil, List.foldl_nil]
  | cons i is ih =>
    rw [List.foldl_cons, List.foldl_cons, multByteAt_eq ctx mem x z i (h i List.mem_cons_self)]
    exact ih _ fun j hj => h j (List.mem_cons_of_mem _ hj)

@[simp] theorem length_store64Be (v : BitVec 64) : (store64Be v).length = 8 := rfl

/-- Two stores of eight bytes are one of sixteen. -/
theorem read_store64Be (mem : Buf) (out : Nat) (zh zl : BitVec 64) :
    ((mem.write out (store64Be zh)).write (out + 8) (store64Be zl)).read out 16 = store64Be zh ++ store64Be zl := by
  rw [show 16 = 8 + 8 from rfl, Buf.read_add, Buf.read_write_of_length _ _ _ _ (length_store64Be zl),
    Buf.read_write_before _ _ _ _ _ (Nat.le_refl _), Buf.read_write_of_length _ _ _ _ (length_store64Be zh)]

/-- The operand is read before the first store, so `out` may lie anywhere. -/
theorem blockAt_gcmMultAt (mem : Buf) (x out : Nat) :
    blockAt (gcmMultAt ctx mem x out) out = gcmMult ctx (blockAt mem x) := by
  have hmem : ∀ i ∈ (List.range 16).reverse, i < 16 := fun i hi => List.mem_range.mp (List.mem_reverse.mp hi)
  unfold gcmMultAt gcmMult
  dsimp only
  rw [foldl_multByteAt ctx mem x _ _ hmem, getD_blockAt mem x 15 (by decide), blockAt, read_store64Be]

theorem onlyAt_gcmMultAt (mem : Buf) (x out : Nat) : OnlyAt out mem (gcmMultAt ctx mem x out) := by
  unfold gcmMultAt
  dsimp only
  -- the two halves of the block
  refine OnlyAt.trans (Buf.sameOutside_write _ out 16 _ _ (Nat.le_refl _) ?_)
    (Buf.sameOutside_write _ out 16 _ _ (Nat.le_add_right ..) ?_)
  · rw [length_store64Be]
    omega
  · rw [length_store64Be]

end Mult

/-! ### The accumulator -/

theorem data_xorInto (mem : Buf) (Y : Nat) (block : List Byte) (n i : Nat) :
    (xorInto mem Y block n).data i =
      if Y ≤ i ∧ i < Y + n then mem.data i ^^^ block.getD (i - Y) 0#8 else mem.data i := by
  induction n with
  | zero => rw [xorInto, if_neg (by omega)]
  | succ n ih =>
    rw [xorInto]
    obtain hlt | heq | hgt := Nat.lt_trichotomy i (Y + n)
    · rw [Buf.data_write_of_lt _ _ _ _ hlt, ih]
      by_cases hY : Y ≤ i
      · rw [if_pos ⟨hY, hlt⟩, if_pos ⟨hY, by omega⟩]
      · rw [if_neg (by omega), if_neg (by omega)]
    · subst heq
      have hold : (xorInto mem Y block n).data (Y + n) = mem.data (Y + n) := by
        rw [ih, if_neg (by omega)]
      have hstore := Buf.data_write_inside (xorInto mem Y block n) (Y + n)
        [(xorInto mem Y block n).data (Y + n) ^^^ block.getD n 0#8] 0 Nat.one_pos
      rw [Nat.add_zero] at hstore
      rw [hstore, if_pos (by omega), hold, Nat.add_sub_cancel_left]
      rfl
    · rw [Buf.data_write_of_ge _ _ _ _ (by rw [List.length_singleton]; omega), ih, if_neg (by omega), if_neg (by omega)]

theorem blockAt_xorInto (mem : Buf) (Y : Nat) (block : List Byte) :
    blockAt (xorInto mem Y block 16) Y = Block.xor (blockAt mem Y) (Block.ofList block) := by
  apply Vector.ext
  intro i hi
  rw [getElem_blockAt _ _ _ hi, Block.getElem_xor, getElem_blockAt _ _ _ hi, Block.getElem_ofList, data_xorInto,
    if_pos (by omega), Nat.add_sub_cancel_left]

theorem onlyAt_xorInto (mem : Buf) (Y : Nat) (block : List Byte) : OnlyAt Y mem (xorInto mem Y block 16) := by
  intro i hi
  rw [data_xorInto, if_neg (by omega)]

section Ghash
variable (ctx : GcmContext)

theorem blockAt_ghashBlockAt (mem : Buf) (Y : Nat) (block : List Byte) :
    blockAt (ghashBlockAt ctx mem Y block) Y = gcmMult ctx (Block.xor (blockAt mem Y) (Block.ofList block)) := by
  rw [← blockAt_xorInto]
  exact blockAt_gcmMultAt ctx _ Y Y

theorem onlyAt_ghashBlockAt (mem : Buf) (Y : Nat) (block : List Byte) : OnlyAt Y mem (ghashBlockAt ctx mem Y block) :=
  (onlyAt_xorInto mem Y block).trans (onlyAt_gcmMultAt ctx _ Y Y)

theorem blockAt_ghashLoop (mem : Buf) (Y : Nat) (data : List Byte) (ks : List Nat) :
    blockAt (ks.foldl (fun mem k => ghashBlockAt ctx mem Y (data.drop (16 * k))) mem) Y =
      ks.foldl (fun acc k => gcmMult ctx (Block.xor acc (Block.ofList (data.drop (16 * k))))) (blockAt mem Y) := by
  induction ks generalizing mem with
  | nil => rw [List.foldl_nil, List.foldl_nil]
  | cons k ks ih => rw [List.foldl_cons, List.foldl_cons, ih, blockAt_ghashBlockAt]

theorem onlyAt_ghashLoop (mem : Buf) (Y : Nat) (data : List Byte) (ks : List Nat) :
    OnlyAt Y mem (ks.foldl (fun mem k => ghashBlockAt ctx mem Y (data.drop (16 * k))) mem) := by
  induction ks generalizing mem with
  | nil =>
    rw [List.foldl_nil]
    exact fun i _ => Eq.refl (mem.data i)
  | cons k ks ih =>
    rw [List.foldl_cons]
    exact (onlyAt_ghashBlockAt ctx mem Y _).trans (ih _)

theorem ofList_append_zeros (l : List Byte) (n : Nat) : Block.ofList (l ++ zeros n) = Block.ofList l := by
  apply Vector.ext
  intro i hi
  rw [Block.getElem_ofList, Block.getElem_ofList, List.getD_eq_getElem?_getD, List.getD_eq_getElem?_getD]
  by_cases hlt : i < l.length
  · rw [List.getElem?_append_left hlt]
  · rw [List.getElem?_append_right (Nat.le_of_not_lt hlt), List.getElem?_eq_none (Nat.le_of_not_lt hlt), zeros,
      List.getElem?_replicate]
    split <;> rfl

/-- In memory the hash is the one on blocks. -/
theorem blockAt_ghashUpdateAt (mem : Buf) (Y : Nat) (data : List Byte) :
    blockAt (ghashUpdateAt ctx mem Y data) Y = ghashUpdate ctx (blockAt mem Y) data := by
  unfold ghashUpdateAt ghashUpdate
  dsimp only
  by_cases h : 16 * (data.length / 16) < data.length
  · rw [if_pos h, if_pos h, blockAt_ghashBlockAt, ofList_append_zeros, blockAt_ghashLoop]
  · rw [if_neg h, if_neg h, blockAt_ghashLoop]

theorem onlyAt_ghashUpdateAt (mem : Buf) (Y : Nat) (data : List Byte) : OnlyAt Y mem (ghashUpdateAt ctx mem Y data) := by
  have hloop := onlyAt_ghashLoop ctx mem Y data (List.range (data.length / 16))
  unfold ghashUpdateAt
  dsimp only
  by_cases h : 16 * (data.length / 16) < data.length
  · rw [if_pos h]
    exact hloop.trans (onlyAt_ghashBlockAt ctx _ Y _)
  · rw [if_neg h]
    exact hloop

end Ghash

/-- **`gcm_mult` multiplies by `H` in the field**, wherever its operand and its result lie,
once `gcm_gen_table` has filled the tables; in place it makes `ghash_update` the hash of the
mode. Neither touches anything but the 16 bytes of its result. -/
theorem gcm_mult_product (ctx : GcmContext) (mem : Buf) :
    let tabled := gcmGenTable ctx
    (∀ x out, (blockAt (gcmMultAt tabled mem x out) out).bits = Gf128.mul (blockAt mem x).bits ctx.H.bits ∧
      OnlyAt out mem (gcmMultAt tabled mem x out)) ∧
    ∀ Y data, (blockAt (ghashUpdateAt tabled mem Y data) Y).bits =
        (Gcm.padded data).foldl (fun acc X => Gf128.mul (acc ^^^ X) ctx.H.bits) (blockAt mem Y).bits ∧
      OnlyAt Y mem (ghashUpdateAt tabled mem Y data) := by
  intro tabled
  have hT : tabled.Tabled ctx.H.bits := gcmGenTable_tabled ctx
  refine ⟨fun x out => ⟨?_, onlyAt_gcmMultAt tabled mem x out⟩, fun Y data => ⟨?_, ?_⟩⟩
  · rw [blockAt_gcmMultAt, gcmMult_eq hT, Block.bits_ofBits]
  · rw [blockAt_ghashUpdateAt, ghashUpdate_eq hT, Block.bits_ofBits]
  · exact onlyAt_ghashUpdateAt tabled mem Y data

end Thingino.Crypto
