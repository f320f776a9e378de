import Mathlib.Data.List.Rotate

/-! The last values of a sequence, in an array that is written around.

`recent n start values` are the last `n` of some values, the newest one first, where `start` stands for those before
the first. An array into which each value is written at the next place, and again from the beginning when it is full,
holds them in the order that `Tracks` says (`Tracks.push`), and so has the same values (`Tracks.perm`). -/
namespace Thingino.Lib.History
variable {α : Type}

def recent (n : Nat) (start : α) (values : List α) : List α := (values ++ List.replicate n start).take n

theorem length_recent (n : Nat) (start : α) (values : List α) : (recent n start values).length = n := by
  rw [recent, List.length_take, List.length_append, List.length_replicate]
  omega

theorem mem_recent {n : Nat} {start a : α} {values : List α} (h : a ∈ recent n start values) :
    a = start ∨ a ∈ values := by
  obtain h | h := List.mem_append.mp (List.mem_of_mem_take h)
  · exact .inr h
  · exact .inl (List.eq_of_mem_replicate h)

/-- A new value takes the place of the oldest one. -/
theorem recent_cons (n : Nat) (start a : α) (values : List α) :
    recent (n + 1) start (a :: values) = a :: (recent (n + 1) start values).dropLast := by
  have hlen := length_recent (n + 1) start values
  rw [List.dropLast_eq_take, hlen, Nat.add_sub_cancel, recent, recent, List.take_take, Nat.min_eq_left (Nat.le_succ n)]
  rfl

/-- From the next place on, the array has the oldest value first. -/
structure Tracks (n : Nat) (start : α) (values array : List α) (index : Nat) : Prop where
  length : array.length = n
  index_lt : index < n
  rotate : array.rotate index = (recent n start values).reverse

variable {n index : Nat} {start a : α} {values array : List α}

theorem tracks_start (hn : 0 < n) : Tracks n start [] (List.replicate n start) 0 := by
  refine ⟨List.length_replicate, hn, ?_⟩
  rw [List.rotate_zero, recent, List.nil_append, List.take_of_length_le (Nat.le_of_eq List.length_replicate),
    List.reverse_replicate]

/-- A value written at a place becomes the last one when the array is read from the place behind it. -/
theorem rotate_set (hindex : index < array.length) (a : α) :
    (array.set index a).rotate (index + 1) = (array.rotate index).tail ++ [a] := by
  have hlen : (array.set index a).length = array.length := List.length_set
  have hcell : array.drop index ≠ [] := List.ne_nil_of_length_pos (by rw [List.length_drop]; omega)
  rw [List.rotate_eq_drop_append_take (by omega), List.rotate_eq_drop_append_take (by omega),
    List.drop_set_of_lt (Nat.lt_succ_self index), List.take_set, List.take_add_one, List.getElem?_eq_getElem hindex,
    List.tail_append_of_ne_nil hcell, List.tail_drop, List.append_assoc]
  congr 1
  have htake : (array.take index).length = index := List.length_take_of_le hindex.le
  rw [List.set_append_right _ _ (Nat.le_of_eq htake), htake, Nat.sub_self]
  rfl

theorem Tracks.push (h : Tracks n start values array index) (a : α) :
    Tracks n start (a :: values) (array.set index a) ((index + 1) % n) := by
  have hindex : index < array.length := h.length.symm ▸ h.index_lt
  have hlen : (array.set index a).length = n := List.length_set.trans h.length
  refine ⟨hlen, Nat.mod_lt _ (Nat.zero_lt_of_lt h.index_lt), ?_⟩
  obtain ⟨m, rfl⟩ : ∃ m, n = m + 1 := ⟨n - 1, by have := h.index_lt; omega⟩
  have hwrap : (array.set index a).rotate ((index + 1) % (m + 1)) = (array.set index a).rotate (index + 1) := by
    rw [← hlen, List.rotate_mod]
  rw [hwrap, rotate_set hindex, h.rotate, recent_cons, List.reverse_cons, List.tail_reverse]

/-- The array has the last values, in some order. -/
theorem Tracks.perm (h : Tracks n start values array index) : array.Perm (recent n start values) :=
  (List.rotate_perm array index).symm.trans (h.rotate ▸ List.reverse_perm _)

end Thingino.Lib.History
