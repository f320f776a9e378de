import Mathlib.Data.List.Basic

/-! Byte strings, 16-byte blocks and byte buffers.

A message is a `List Byte`; a cipher works on a `Block` of exactly 16 bytes.
`toBlocks` cuts a message into blocks and fills the last one with zeros,
`ofBlocks` joins blocks again. `Buf` is a region of memory that a program fills
piece by piece: what it holds, and which ranges were written. A buffer filled
from its start is described by the list it holds (`Buf.Holds`), and every
further write at the end appends to that list (`Holds.write`). -/
namespace Thingino.Lib

abbrev Byte := BitVec 8

/-- A cipher block. -/
abbrev Block := Vector Byte 16

def zeros (n : Nat) : List Byte := List.replicate n 0#8

@[simp] theorem length_zeros (n : Nat) : (zeros n).length = n := List.length_replicate

/-- Bytewise exclusive or, as long as the shorter argument. -/
def xorBytes (a b : List Byte) : List Byte := List.zipWith (· ^^^ ·) a b

@[simp] theorem length_xorBytes (a b : List Byte) : (xorBytes a b).length = min a.length b.length :=
  List.length_zipWith

theorem xorBytes_cons (x y : Byte) (a b : List Byte) :
    xorBytes (x :: a) (y :: b) = (x ^^^ y) :: xorBytes a b := rfl

/-- A keystream applied twice is gone. -/
theorem xorBytes_cancel (a b : List Byte) (h : a.length ≤ b.length) : xorBytes (xorBytes a b) b = a := by
  induction a generalizing b with
  | nil => rfl
  | cons x a ih =>
    cases b with
    | nil => simp at h
    | cons y b =>
      simp only [xorBytes_cons, ih b (by simpa using h), BitVec.xor_assoc, BitVec.xor_self, BitVec.xor_zero]

theorem take_xorBytes (n : Nat) (a b : List Byte) :
    (xorBytes a b).take n = xorBytes (a.take n) (b.take n) := List.take_zipWith

/-- Two strings of one length with a zero difference are the same string. -/
theorem eq_of_xorBytes_zero (a b : List Byte) (hl : a.length = b.length)
    (h : ∀ x ∈ xorBytes a b, x = 0#8) : a = b := by
  induction a generalizing b with
  | nil => exact (List.length_eq_zero_iff.mp hl.symm).symm
  | cons x a ih =>
    cases b with
    | nil => simp at hl
    | cons y b =>
      rw [xorBytes_cons] at h
      have hxy : x = y := BitVec.xor_eq_zero_iff.mp (h _ (List.mem_cons_self ..))
      rw [hxy, ih b (by simpa using hl) (fun z hz => h z (List.mem_cons_of_mem _ hz))]

/-- The low `8 * n` bits of `x`, most significant byte first. -/
def beBytes (n x : Nat) : List Byte :=
  (List.range n).map fun i => BitVec.ofNat 8 (x >>> (8 * (n - 1 - i)))

@[simp] theorem length_beBytes (n x : Nat) : (beBytes n x).length = n := by simp [beBytes]

theorem beBytes_zero (n : Nat) : beBytes n 0 = zeros n := by
  simp [beBytes, zeros, List.map_const']

/-- The number whose bytes these are, most significant byte first. -/
def beNat (l : List Byte) : Nat := l.foldl (fun n x => 256 * n + x.toNat) 0

theorem beNat_concat (l : List Byte) (x : Byte) : beNat (l ++ [x]) = 256 * beNat l + x.toNat := by
  rw [beNat, List.foldl_append]
  rfl

theorem getD_eq_getElem {α : Type} {n : Nat} (v : Vector α n) (i : Nat) (d : α) (hi : i < n) : v.getD i d = v[i] := by
  simp [Vector.getD, hi]

/-- One place of an array written, another one read. -/
theorem getD_setIfInBounds {α : Type} {n : Nat} (v : Vector α n) (i j : Nat) (x d : α) (hi : i < n) :
    (v.setIfInBounds i x).getD j d = if i = j then x else v.getD j d := by
  have hget (u : Vector α n) : u.getD j d = (u[j]?).getD d := by
    rw [Vector.getD, Array.getD_eq_getD_getElem?, Vector.getElem?_toArray]
  rw [hget, hget, Vector.getElem?_setIfInBounds, if_pos hi]
  split <;> rfl

/-! ### Blocks -/

namespace Block

/-- The first 16 bytes of a string, zeros where it is shorter. -/
def ofList (l : List Byte) : Block := Vector.ofFn fun i => l.getD i 0#8

def xor (a b : Block) : Block := Vector.zipWith (· ^^^ ·) a b

def zero : Block := Vector.replicate 16 0#8

theorem getElem_ofList (l : List Byte) (i : Nat) (h : i < 16) : (ofList l)[i] = l.getD i 0#8 := by
  simp [ofList]

theorem getElem_xor (a b : Block) (i : Nat) (h : i < 16) : (xor a b)[i] = a[i] ^^^ b[i] := by
  simp [xor]

@[simp] theorem getElem_zero (i : Nat) (h : i < 16) : zero[i] = 0#8 := by
  simp [zero]

theorem xor_comm (a b : Block) : xor a b = xor b a := by
  apply Vector.ext
  intro i h
  rw [getElem_xor, getElem_xor, BitVec.xor_comm]

/-- What was added last is removed by adding it again. -/
theorem xor_cancel (a b : Block) : xor (xor a b) b = a := by
  apply Vector.ext
  intro i h
  rw [getElem_xor, getElem_xor, BitVec.xor_assoc, BitVec.xor_self, BitVec.xor_zero]

theorem zero_xor (a : Block) : xor zero a = a := by
  apply Vector.ext
  intro i h
  rw [getElem_xor, getElem_zero, BitVec.zero_xor]

theorem toList_xor (a b : Block) : (xor a b).toList = xorBytes a.toList b.toList := by
  apply List.ext_getElem (by simp)
  intro i h _
  have h16 : i < 16 := by simpa using h
  simp [xorBytes, getElem_xor _ _ _ h16]

theorem toList_ofList (l : List Byte) (h : l.length = 16) : (ofList l).toList = l := by
  apply List.ext_getElem (by simp [h])
  intro i hi hl
  simp [getElem_ofList, List.getD_eq_getElem?_getD, hl]

theorem ofList_toList (b : Block) : ofList b.toList = b := by
  apply Vector.ext
  intro i h
  simp [getElem_ofList, List.getD_eq_getElem?_getD, h]

theorem toList_zero : zero.toList = zeros 16 := by
  simp [zero, zeros]

theorem ofList_take (l : List Byte) : ofList (l.take 16) = ofList l := by
  apply Vector.ext
  intro i hi
  simp [getElem_ofList, List.getD_eq_getElem?_getD, hi]

end Block

/-- A string cut into blocks; the last one is filled with zeros. -/
def toBlocks (l : List Byte) : List Block :=
  (List.range ((l.length + 15) / 16)).map fun i => Block.ofList (l.drop (16 * i))

/-- Blocks joined to a string. -/
def ofBlocks (bs : List Block) : List Byte := bs.flatMap (·.toList)

@[simp] theorem toBlocks_nil : toBlocks [] = [] := rfl

@[simp] theorem length_toBlocks (l : List Byte) : (toBlocks l).length = (l.length + 15) / 16 := by
  simp [toBlocks]

/-- The first block, and the blocks of the rest. -/
theorem toBlocks_cons (l : List Byte) (h : l ≠ []) :
    toBlocks l = Block.ofList l :: toBlocks (l.drop 16) := by
  have hpos := List.length_pos_of_ne_nil h
  have hn : (l.length + 15) / 16 = ((l.drop 16).length + 15) / 16 + 1 := by
    rw [List.length_drop]
    omega
  unfold toBlocks
  rw [hn, List.range_succ_eq_map, List.map_cons, List.map_map]
  refine congrArg (Block.ofList l :: ·) ?_
  apply List.map_congr_left
  intro i _
  have hdrop : 16 + 16 * i = 16 * (i + 1) := by omega
  simp only [Function.comp, Nat.succ_eq_add_one, List.drop_drop, hdrop]

theorem toBlocks_append (a b : List Byte) (h : a.length % 16 = 0) :
    toBlocks (a ++ b) = toBlocks a ++ toBlocks b := by
  unfold toBlocks
  have hn : ((a ++ b).length + 15) / 16 = (a.length + 15) / 16 + (b.length + 15) / 16 := by
    rw [List.length_append]
    omega
  rw [hn, List.range_add, List.map_append, List.map_map]
  refine congrArg₂ (· ++ ·) ?_ ?_
  · apply List.map_congr_left
    intro i hi
    have hi' := List.mem_range.mp hi
    have hlen : 16 ≤ (a.drop (16 * i)).length := by
      rw [List.length_drop]
      omega
    rw [List.drop_append_of_le_length (by omega), ← Block.ofList_take, ← Block.ofList_take (a.drop _),
      List.take_append_of_le_length hlen]
  · apply List.map_congr_left
    intro i _
    have : 16 * ((a.length + 15) / 16 + i) = a.length + 16 * i := by omega
    simp only [Function.comp, this, List.drop_append, List.drop_eq_nil_of_le (by omega : a.length ≤ a.length + 16 * i),
      List.nil_append, Nat.add_sub_cancel_left]

@[simp] theorem ofBlocks_nil : ofBlocks [] = [] := rfl

theorem ofBlocks_cons (b : Block) (bs : List Block) : ofBlocks (b :: bs) = b.toList ++ ofBlocks bs := by
  simp [ofBlocks]

theorem ofBlocks_append (a b : List Block) : ofBlocks (a ++ b) = ofBlocks a ++ ofBlocks b := by
  simp [ofBlocks]

@[simp] theorem length_ofBlocks (bs : List Block) : (ofBlocks bs).length = 16 * bs.length := by
  induction bs with
  | nil => rfl
  | cons b bs ih =>
    rw [ofBlocks_cons, List.length_append, ih, Vector.length_toList, List.length_cons]
    omega

theorem getElem?_ofBlocks (bs : List Block) (i : Nat) :
    (ofBlocks bs)[i]? = (bs[i / 16]?).map fun b => b.getD (i % 16) 0#8 := by
  induction bs generalizing i with
  | nil => rfl
  | cons b bs ih =>
    have hl : b.toList.length = 16 := Vector.length_toList
    rw [ofBlocks_cons]
    by_cases hi : i < 16
    · rw [List.getElem?_append_left (by omega), Nat.div_eq_of_lt hi, Nat.mod_eq_of_lt hi]
      simp [Vector.getD, hi]
    · obtain ⟨k, rfl⟩ : ∃ k, i = k + 16 := ⟨i - 16, by omega⟩
      rw [List.getElem?_append_right (by omega), hl, Nat.add_sub_cancel, ih, Nat.add_div_right _ (by decide),
        Nat.add_mod_right]
      rfl

theorem toBlocks_ofBlocks (bs : List Block) : toBlocks (ofBlocks bs) = bs := by
  induction bs with
  | nil => rfl
  | cons b bs ih =>
    have hl : b.toList.length = 16 := Vector.length_toList
    rw [ofBlocks_cons, toBlocks_append _ _ (by rw [hl]), ih, toBlocks_cons _ (by
      intro h
      rw [h] at hl
      simp at hl), Block.ofList_toList, List.drop_eq_nil_of_le (by omega)]
    rfl

/-- Cutting loses nothing when the length is a whole number of blocks. -/
theorem ofBlocks_toBlocks (l : List Byte) (h : l.length % 16 = 0) : ofBlocks (toBlocks l) = l := by
  induction hn : l.length / 16 generalizing l with
  | zero =>
    have : l = [] := List.length_eq_zero_iff.mp (by omega)
    rw [this]
    rfl
  | succ n ih =>
    have hne : l ≠ [] := by
      intro h0
      rw [h0] at hn
      simp at hn
    have hd : (l.drop 16).length = l.length - 16 := List.length_drop
    rw [toBlocks_cons l hne, ofBlocks_cons, ih (l.drop 16) (by omega) (by omega), ← Block.ofList_take,
      Block.toList_ofList _ (by rw [List.length_take]; omega), List.take_append_drop]

/-- Zeros up to the next block boundary. -/
def pad16 (l : List Byte) : List Byte := l ++ zeros ((16 - l.length % 16) % 16)

theorem length_pad16 (l : List Byte) : (pad16 l).length = 16 * ((l.length + 15) / 16) := by
  simp only [pad16, List.length_append, length_zeros]
  omega

/-- What stands before a block boundary does not change the padding after it. -/
theorem pad16_append (a b : List Byte) (h : a.length % 16 = 0) : pad16 (a ++ b) = a ++ pad16 b := by
  rw [pad16, pad16, List.length_append, List.append_assoc, show (a.length + b.length) % 16 = b.length % 16 by omega]

/-! ### Buffers -/

/-- A region of memory, with the ranges `(offset, length)` written to it so far. -/
structure Buf where
  data : Nat → Byte
  touched : List (Nat × Nat)

namespace Buf

/-- `n` bytes from `off`. -/
def read (b : Buf) (off n : Nat) : List Byte := (List.range n).map fun i => b.data (off + i)

def write (b : Buf) (off : Nat) (bytes : List Byte) : Buf :=
  { data := fun i => if off ≤ i ∧ i < off + bytes.length then bytes.getD (i - off) 0#8 else b.data i
    touched := (off, bytes.length) :: b.touched }

@[simp] theorem length_read (b : Buf) (off n : Nat) : (b.read off n).length = n := by simp [read]

theorem data_write_of_lt (b : Buf) (off : Nat) (bytes : List Byte) (i : Nat) (h : i < off) :
    (b.write off bytes).data i = b.data i := by
  simp only [write]
  rw [if_neg (by omega)]

theorem data_write_of_ge (b : Buf) (off : Nat) (bytes : List Byte) (i : Nat) (h : off + bytes.length ≤ i) :
    (b.write off bytes).data i = b.data i := by
  simp only [write]
  rw [if_neg (by omega)]

theorem data_write_inside (b : Buf) (off : Nat) (bytes : List Byte) (i : Nat) (h : i < bytes.length) :
    (b.write off bytes).data (off + i) = bytes.getD i 0#8 := by
  simp only [write]
  rw [if_pos (by omega), Nat.add_sub_cancel_left]

theorem read_add (b : Buf) (off m n : Nat) : b.read off (m + n) = b.read off m ++ b.read (off + m) n := by
  simp only [read, List.range_add, List.map_append, List.map_map]
  congr 1
  apply List.map_congr_left
  intro i _
  simp only [Function.comp, Nat.add_assoc]

theorem read_congr (b c : Buf) (off n : Nat) (h : ∀ i, i < n → b.data (off + i) = c.data (off + i)) :
    b.read off n = c.read off n :=
  List.map_congr_left fun i hi => h i (List.mem_range.mp hi)

theorem read_write_self (b : Buf) (off : Nat) (bytes : List Byte) :
    (b.write off bytes).read off bytes.length = bytes := by
  apply List.ext_getElem (by simp)
  intro i _ h
  simp [read, data_write_inside b off bytes i h, List.getD_eq_getElem?_getD, h]

theorem read_write_of_length (b : Buf) (off n : Nat) (bytes : List Byte) (h : bytes.length = n) :
    (b.write off bytes).read off n = bytes := h ▸ read_write_self b off bytes

/-- A write at or after the end of a range leaves the range alone. -/
theorem read_write_before (b : Buf) (off n at_ : Nat) (bytes : List Byte) (h : off + n ≤ at_) :
    (b.write at_ bytes).read off n = b.read off n :=
  read_congr _ _ _ _ fun i hi => data_write_of_lt b at_ bytes _ (by omega)

/-- Two ranges that do not meet do not see each other. -/
theorem read_write_apart (b : Buf) (off n at_ : Nat) (bytes : List Byte)
    (h : off + n ≤ at_ ∨ at_ + bytes.length ≤ off) : (b.write at_ bytes).read off n = b.read off n := by
  obtain h | h := h
  · exact read_write_before b off n at_ bytes h
  · exact read_congr _ _ _ _ fun i _ => data_write_of_ge b at_ bytes _ (by omega)

/-- Nothing outside `n` bytes from `off` differs. -/
def SameOutside (off n : Nat) (b c : Buf) : Prop := ∀ i, i < off ∨ off + n ≤ i → c.data i = b.data i

theorem sameOutside_write (b : Buf) (off n at_ : Nat) (bytes : List Byte) (hlo : off ≤ at_)
    (hhi : at_ + bytes.length ≤ off + n) : SameOutside off n b (b.write at_ bytes) := by
  rintro i (h | h)
  · exact data_write_of_lt b at_ bytes i (by omega)
  · exact data_write_of_ge b at_ bytes i (by omega)

theorem SameOutside.trans {off n : Nat} {b c d : Buf} (hbc : SameOutside off n b c) (hcd : SameOutside off n c d) :
    SameOutside off n b d := fun i h => (hcd i h).trans (hbc i h)

theorem SameOutside.widen {off n off' n' : Nat} {b c : Buf} (h : SameOutside off n b c) (hlo : off' ≤ off)
    (hhi : off + n ≤ off' + n') : SameOutside off' n' b c := fun i hi => h i (by omega)

theorem SameOutside.read {off n : Nat} {b c : Buf} (h : SameOutside off n b c) (at_ k : Nat)
    (hap : at_ + k ≤ off ∨ off + n ≤ at_) : c.read at_ k = b.read at_ k :=
  read_congr _ _ _ _ fun i _ => h _ (by omega)

/-- A range inside another, read off the whole. -/
theorem read_sub (b : Buf) (off n k m : Nat) (h : k + m ≤ n) :
    b.read (off + k) m = ((b.read off n).drop k).take m := by
  obtain ⟨r, rfl⟩ := Nat.exists_eq_add_of_le h
  rw [Nat.add_assoc, read_add, List.drop_append_of_le_length (by simp),
    List.drop_eq_nil_of_le (by simp), List.nil_append, read_add,
    List.take_append_of_le_length (by simp), List.take_of_length_le (by simp)]

/-- The buffer starts with these bytes. -/
def Holds (b : Buf) (l : List Byte) : Prop := b.read 0 l.length = l

theorem holds_nil (b : Buf) : Holds b [] := rfl

/-- What is written at the end of what a buffer holds is appended to it. -/
theorem Holds.write {b : Buf} {l : List Byte} (h : Holds b l) (bytes : List Byte) :
    Holds (b.write l.length bytes) (l ++ bytes) := by
  unfold Holds at h ⊢
  rw [List.length_append, read_add, read_write_before _ _ _ _ _ (by omega), h, Nat.zero_add,
    read_write_self]

theorem Holds.writeAt {b : Buf} {l : List Byte} (h : Holds b l) (off : Nat) (hoff : off = l.length)
    (bytes : List Byte) : Holds (b.write off bytes) (l ++ bytes) := hoff ▸ h.write bytes

theorem Holds.read {b : Buf} {l : List Byte} (h : Holds b l) (off n : Nat) (hn : off + n ≤ l.length) :
    b.read off n = (l.drop off).take n := by
  have := read_sub b 0 l.length off n hn
  rw [Nat.zero_add] at this
  rw [this, h]

/-- Every byte written so far lies below `size`. -/
def InBounds (size : Nat) (b : Buf) : Prop := ∀ r ∈ b.touched, ∀ k, k < r.2 → r.1 + k < size

theorem inBounds_write (size : Nat) (b : Buf) (off : Nat) (bytes : List Byte) :
    InBounds size (b.write off bytes) ↔ (bytes ≠ [] → off + bytes.length ≤ size) ∧ InBounds size b := by
  constructor
  · intro h
    refine ⟨fun hne => ?_, fun r hr => h r (List.mem_cons_of_mem _ hr)⟩
    have hpos := List.length_pos_of_ne_nil hne
    have := h (off, bytes.length) (List.mem_cons_self ..) (bytes.length - 1) (by simp only; omega)
    simp only at this
    omega
  · rintro ⟨hw, hb⟩ r hr k hk
    rcases List.mem_cons.mp hr with rfl | hr
    · have hne : bytes ≠ [] := by
        intro h0
        simp [h0] at hk
      have := hw hne
      simp only at hk ⊢
      omega
    · exact hb r hr k hk

theorem InBounds.write {size : Nat} {b : Buf} (h : InBounds size b) (off : Nat) (bytes : List Byte)
    (hle : off + bytes.length ≤ size) : InBounds size (b.write off bytes) :=
  (inBounds_write size b off bytes).mpr ⟨fun _ => hle, h⟩

/-- A buffer with a longer log was in bounds before. -/
theorem InBounds.of_log {size : Nat} {b c : Buf} (h : InBounds size c) (hlog : ∀ r ∈ b.touched, r ∈ c.touched) :
    InBounds size b := fun r hr => h r (hlog r hr)

end Buf

end Thingino.Lib
