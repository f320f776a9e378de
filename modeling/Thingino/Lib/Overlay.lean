import Thingino.Lib.Bytes

/-! A file that is written piece by piece at given offsets, as `dd conv=notrunc` does.

`overlay` puts bytes over a file at an offset; a file that ends before it is filled up with zeros. `Stored`
says that bytes stand in a file at an offset. What was written is stored (`stored_overlay`), and stays so
under a write that does not meet it (`Stored.overlay`). -/
namespace Thingino.Lib

def overlay (file : List Byte) (off : Nat) (data : List Byte) : List Byte :=
  file.take off ++ zeros (off - file.length) ++ data ++ file.drop (off + data.length)

/-- `n` bytes of a file from an offset on, or as many as there are. -/
def extract (file : List Byte) (off n : Nat) : List Byte := (file.drop off).take n

def Stored (file : List Byte) (off : Nat) (data : List Byte) : Prop := data <+: file.drop off

variable {file data : List Byte} {off : Nat}

theorem length_overlay (file : List Byte) (off : Nat) (data : List Byte) :
    (overlay file off data).length = max file.length (off + data.length) := by
  simp only [overlay, List.length_append, List.length_take, List.length_drop, length_zeros]
  omega

/-- Up to the offset there is the file, or what fills it up. -/
theorem length_gap (file : List Byte) (off : Nat) : (file.take off ++ zeros (off - file.length)).length = off := by
  rw [List.length_append, List.length_take, length_zeros]
  omega

theorem drop_overlay (file : List Byte) (off : Nat) (data : List Byte) :
    (overlay file off data).drop off = data ++ file.drop (off + data.length) := by
  rw [overlay, List.append_assoc, List.drop_left' (length_gap file off)]

/-- What was written is there. -/
theorem stored_overlay (file : List Byte) (off : Nat) (data : List Byte) : Stored (overlay file off data) off data := by
  rw [Stored, drop_overlay]
  exact List.prefix_append data _

theorem Stored.end_le (h : Stored file off data) (hne : data ≠ []) : off + data.length ≤ file.length := by
  have hle := List.IsPrefix.length_le h
  have hpos := List.length_pos_iff.mpr hne
  rw [List.length_drop] at hle
  omega

theorem stored_iff : Stored file off data ↔ ∀ i, i < data.length → file[off + i]? = data[i]? := by
  rw [Stored, List.prefix_iff_getElem?]
  constructor
  · intro h i hi
    rw [← List.getElem?_drop, h i hi, List.getElem?_eq_getElem hi]
  · intro h i hi
    rw [List.getElem?_drop, h i hi, List.getElem?_eq_getElem hi]

/-- Below the offset a write changes nothing that is there. -/
theorem getElem?_overlay_below {i : Nat} (hi : i < off) (hfile : i < file.length) :
    (overlay file off data)[i]? = file[i]? := by
  rw [overlay, List.append_assoc, List.append_assoc, List.getElem?_append_left (by rw [List.length_take]; omega),
    List.getElem?_take_of_lt hi]

/-- Behind what it writes a write changes nothing. -/
theorem getElem?_overlay_behind {i : Nat} (hi : off + data.length ≤ i) : (overlay file off data)[i]? = file[i]? := by
  have hdrop := drop_overlay file off data
  obtain ⟨j, rfl⟩ := Nat.exists_eq_add_of_le hi
  rw [show off + data.length + j = off + (data.length + j) by omega, ← List.getElem?_drop, hdrop,
    List.getElem?_append_right (by omega), Nat.add_sub_cancel_left, List.getElem?_drop]
  congr 1
  omega

/-- A write that does not meet the bytes leaves them. -/
theorem Stored.overlay (h : Stored file off data) {off' : Nat} {data' : List Byte}
    (hapart : off + data.length ≤ off' ∨ off' + data'.length ≤ off) : Stored (overlay file off' data') off data := by
  rcases List.eq_nil_or_concat data with rfl | ⟨_, _, rfl⟩
  · exact List.nil_prefix
  have hle := h.end_le (by simp)
  rw [stored_iff] at h ⊢
  intro i hi
  rcases hapart with hbelow | hbehind
  · rw [getElem?_overlay_below (by omega) (by omega), h i hi]
  · rw [getElem?_overlay_behind (by omega), h i hi]

/-- A part that is long enough reads the bytes at its beginning. -/
theorem prefix_extract_iff {n : Nat} : data <+: extract file off n ↔ Stored file off data ∧ data.length ≤ n :=
  List.prefix_take_iff

end Thingino.Lib
