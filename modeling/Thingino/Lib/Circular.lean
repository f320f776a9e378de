import Mathlib.Data.Nat.ModEq
import Thingino.Lib.Bytes

/-! A queue laid around a circle of cells.

`window cap data start n` are `n` cells from `start` on, wrapping at `cap`. A window
splits anywhere (`window_add`), a part that does not wrap is a plain stretch of
memory (`window_straight`), and a stretch stored right behind a window leaves the
window alone as long as the two together fit on the circle (`window_write`). A circle on which a
stream is laid down cell by cell holds the end of it (`Laid`). -/
namespace Thingino.Lib

section Window
variable {α : Type} (cap : Nat) (data : Nat → α)

def window (start n : Nat) : List α := (List.range n).map fun i => data ((start + i) % cap)

@[simp] theorem length_window (start n : Nat) : (window cap data start n).length = n := by simp [window]

theorem window_add (start m n : Nat) :
    window cap data start (m + n) = window cap data start m ++ window cap data ((start + m) % cap) n := by
  simp only [window, List.range_add, List.map_append, List.map_map]
  refine congrArg _ (List.map_congr_left fun i _ => ?_)
  simp only [Function.comp, Nat.mod_add_mod, Nat.add_assoc]

theorem window_congr {data data' : Nat → α} (start n : Nat)
    (h : ∀ i, i < n → data ((start + i) % cap) = data' ((start + i) % cap)) :
    window cap data start n = window cap data' start n :=
  List.map_congr_left fun i hi => h i (List.mem_range.mp hi)

/-- Without a wrap a window is a stretch of memory. -/
theorem window_straight (start n : Nat) (h : start + n ≤ cap) :
    window cap data start n = (List.range n).map fun i => data (start + i) := by
  apply List.map_congr_left
  intro i hi
  have hi' := List.mem_range.mp hi
  rw [Nat.mod_eq_of_lt (by omega)]

theorem take_window (start n k : Nat) (h : k ≤ n) :
    (window cap data start n).take k = window cap data start k := by
  obtain ⟨m, rfl⟩ := Nat.exists_eq_add_of_le h
  rw [window_add, List.take_append_of_le_length (by simp), List.take_of_length_le (by simp)]

theorem drop_window (start n k : Nat) (h : k ≤ n) :
    (window cap data start n).drop k = window cap data ((start + k) % cap) (n - k) := by
  obtain ⟨m, rfl⟩ := Nat.exists_eq_add_of_le h
  rw [window_add, List.drop_append_of_le_length (by simp), List.drop_eq_nil_of_le (by simp), List.nil_append,
    Nat.add_sub_cancel_left]

/-- No cell of a window lies in the stretch behind it. -/
theorem window_disjoint (start n k i j : Nat) (hi : i < n) (hj : j < k) (hfit : n + k ≤ cap) :
    (start + i) % cap ≠ (start + n) % cap + j ∨ cap ≤ (start + n) % cap + j := by
  refine or_iff_not_imp_right.mpr fun hlt heq => ?_
  have hmod : start + i ≡ start + (n + j) [MOD cap] := calc
    (start + i) % cap = (start + n) % cap + j := heq
    _ = ((start + n) % cap + j) % cap := (Nat.mod_eq_of_lt (by omega)).symm
    _ = (start + n + j) % cap := Nat.mod_add_mod ..
    _ = (start + (n + j)) % cap := by rw [Nat.add_assoc]
  have hij := Nat.ModEq.add_left_cancel' start hmod
  rw [Nat.ModEq, Nat.mod_eq_of_lt (by omega), Nat.mod_eq_of_lt (by omega)] at hij
  omega

end Window

/-- A stretch stored behind a window extends it and leaves it alone. -/
theorem window_write (cap : Nat) (b : Buf) (start n : Nat) (bytes : List Byte)
    (hstraight : (start + n) % cap + bytes.length ≤ cap) (hfit : n + bytes.length ≤ cap) :
    window cap (b.write ((start + n) % cap) bytes).data start (n + bytes.length) =
      window cap b.data start n ++ bytes := by
  rw [window_add]
  refine congrArg₂ (· ++ ·) (window_congr cap start n fun i hi => ?_) ?_
  · by_cases hlt : (start + i) % cap < (start + n) % cap
    · exact Buf.data_write_of_lt _ _ _ _ hlt
    · refine Buf.data_write_of_ge _ _ _ _ (Nat.le_of_not_lt fun hin => ?_)
      obtain ⟨j, hj⟩ := Nat.exists_eq_add_of_le (Nat.le_of_not_lt hlt)
      rcases window_disjoint cap start n bytes.length i j hi (by omega) hfit with hne | hge
      · exact hne hj
      · have := Nat.mod_lt (start + i) (show 0 < cap by omega)
        omega
  · rw [window_straight cap _ _ _ hstraight]
    exact Buf.read_write_self b _ bytes

section Laid
variable {α : Type} {cap : Nat} {data : Nat → α} {stream : List α}

/-- The last `cap` elements of a stream are on the circle, each in its cell. -/
def Laid (cap : Nat) (data : Nat → α) (stream : List α) : Prop :=
  ∀ i x, stream[i]? = some x → stream.length ≤ i + cap → data (i % cap) = x

theorem laid_nil (cap : Nat) (data : Nat → α) : Laid cap data [] := fun i x h => by simp at h

/-- The next element goes into the next cell, over the oldest one. -/
theorem Laid.push (h : Laid cap data stream) (x : α) :
    Laid cap (Function.update data (stream.length % cap) x) (stream ++ [x]) := by
  intro i y hy hold
  rw [List.length_append, List.length_singleton] at hold
  obtain hlt | heq | hgt := Nat.lt_trichotomy i stream.length
  · have hcell : i % cap ≠ stream.length % cap := by
      intro hmod
      have hdvd := (Nat.modEq_iff_dvd' hlt.le).mp hmod
      have hle := Nat.le_of_dvd (Nat.sub_pos_of_lt hlt) hdvd
      omega
    rw [Function.update_of_ne hcell]
    rw [List.getElem?_append_left hlt] at hy
    exact h i y hy (by omega)
  · subst heq
    rw [List.getElem?_append_right (Nat.le_refl _), Nat.sub_self, List.getElem?_cons_zero] at hy
    rw [Function.update_self, Option.some.inj hy]
  · rw [List.getElem?_eq_none (by simp; omega)] at hy
    cases hy

/-- A window over the end of the stream is a run of it. -/
theorem Laid.window (h : Laid cap data stream) {start n : Nat} (hend : start + n ≤ stream.length)
    (hold : stream.length ≤ start + cap) : window cap data (start % cap) n = (stream.drop start).take n := by
  apply List.ext_getElem
  · rw [length_window, List.length_take, List.length_drop]
    omega
  · intro i hi _
    rw [length_window] at hi
    have hsome : stream[start + i]? = some stream[start + i] := List.getElem?_eq_getElem (by omega)
    simp only [Lib.window, List.getElem_map, List.getElem_range, Nat.mod_add_mod, List.getElem_take, List.getElem_drop]
    exact h (start + i) _ hsome (by omega)

end Laid

end Thingino.Lib
