import Mathlib.Data.List.Infix
import Thingino.Lib.CString

/-! A stream that is read line by line, and a line that is taken apart at its first blank. -/
namespace Thingino.Lib

namespace Lines

/-- `while IFS= read -r line`: the lines that are ended. -/
def lines (s : List Byte) : List (List Byte) := (s.splitOn 10).dropLast

/-- `${line%% *}`. -/
def first (line : List Byte) : List Byte := line.takeWhile (· ≠ 32)

/-- `${line#* }`: the line itself if it has no blank. -/
def behind (line : List Byte) : List Byte :=
  match line.dropWhile (· ≠ 32) with
  | [] => line
  | _ :: rest => rest

variable {a b w line : List Byte}

/-- A text that is ended is read on its own. -/
theorem lines_append (a s : List Byte) : lines (a ++ 10 :: s) = a.splitOn 10 ++ lines s := by
  rw [lines, List.splitOn_append_cons_self, List.dropLast_append_of_ne_nil (List.splitOn_ne_nil 10 s)]
  rfl

/-- A text without newlines is one line. -/
theorem splitOn_line (h : 10 ∉ line) : line.splitOn 10 = [line] := List.splitOn_eq_singleton h

theorem splitOn_cut {c : Byte} (ha : c ∉ a) (b : List Byte) : (a ++ c :: b).splitOn c = a :: b.splitOn c := by
  rw [List.splitOn_append_cons_self, List.splitOn_eq_singleton ha]
  rfl

/-- No line has a newline in it. -/
theorem notMem_of_mem_splitOn {c : Byte} {s : List Byte} (h : line ∈ s.splitOn c) : c ∉ line := by
  induction s generalizing line with
  | nil =>
    rw [List.splitOn_nil, List.mem_singleton] at h
    rw [h]
    exact List.not_mem_nil
  | cons b s ih =>
    rw [List.splitOn_cons_eq_if_modifyHead] at h
    split at h
    · obtain rfl | h := List.mem_cons.mp h
      · exact List.not_mem_nil
      · exact ih h
    · rename_i hb
      cases hs : s.splitOn c with
      | nil => exact absurd hs (List.splitOn_ne_nil c s)
      | cons l ls =>
        rw [hs] at h ih
        obtain rfl | h := List.mem_cons.mp h
        · rw [List.mem_cons, not_or]
          exact ⟨fun heq => hb (beq_iff_eq.mpr heq.symm), ih List.mem_cons_self⟩
        · exact ih (List.mem_cons_of_mem l h)

/-- A line has the bytes of the text. -/
theorem mem_of_mem_splitOn {b c : Byte} {s : List Byte} (h : line ∈ s.splitOn c) (hb : b ∈ line) : b ∈ s := by
  induction s generalizing line with
  | nil =>
    rw [List.splitOn_nil, List.mem_singleton] at h
    exact h ▸ hb
  | cons d s ih =>
    rw [List.splitOn_cons_eq_if_modifyHead] at h
    split at h
    · obtain rfl | h := List.mem_cons.mp h
      · cases hb
      · exact List.mem_cons_of_mem d (ih h hb)
    · cases hs : s.splitOn c with
      | nil => exact absurd hs (List.splitOn_ne_nil c s)
      | cons l ls =>
        rw [hs] at h ih
        obtain rfl | h := List.mem_cons.mp h
        · obtain rfl | hb := List.mem_cons.mp hb
          · exact List.mem_cons_self
          · exact List.mem_cons_of_mem d (ih List.mem_cons_self hb)
        · exact List.mem_cons_of_mem d (ih (List.mem_cons_of_mem l h) hb)

/-- The first line, and the others. -/
theorem splitOn_eq_cons (c : Byte) (s : List Byte) : s.splitOn c = s.takeWhile (· ≠ c) :: (s.splitOn c).tail := by
  induction s with
  | nil => rfl
  | cons b s ih =>
    rw [List.splitOn_cons_eq_if_modifyHead]
    by_cases hb : b = c
    · rw [if_pos (beq_iff_eq.mpr hb), List.takeWhile_cons_of_neg (by simpa using hb)]
      rfl
    · rw [if_neg (fun h => hb (beq_iff_eq.mp h)), List.takeWhile_cons_of_pos (by simpa using hb), ih]
      rfl

theorem notMem_first (line : List Byte) : 32 ∉ first line := by
  intro h
  have hne := List.mem_takeWhile_imp h
  exact absurd rfl (of_decide_eq_true hne)

theorem mem_of_mem_first {c : Byte} (h : c ∈ first line) : c ∈ line := (List.takeWhile_sublist _).subset h

theorem mem_of_mem_behind {c : Byte} (h : c ∈ behind line) : c ∈ line := by
  unfold behind at h
  split at h
  · exact h
  · rename_i b rest hrest
    exact (List.dropWhile_sublist _).subset (hrest ▸ List.mem_cons_of_mem b h)

theorem first_append (h : 32 ∉ a) (b : List Byte) : first (a ++ 32 :: b) = a := takeWhile_cut h b

theorem behind_append (h : 32 ∉ a) (b : List Byte) : behind (a ++ 32 :: b) = b := by
  rw [behind, dropWhile_cut h]

/-- A line is its two parts, or has no blank and is both of them. -/
theorem eq_or_eq (line : List Byte) :
    line = first line ++ 32 :: behind line ∨ first line = line ∧ behind line = line := by
  have hsplit : line.takeWhile (· ≠ 32) ++ line.dropWhile (· ≠ 32) = line := List.takeWhile_append_dropWhile
  have hhead := List.head?_dropWhile_not (· ≠ 32) line
  unfold behind first
  cases hrest : line.dropWhile (· ≠ 32) with
  | nil =>
    rw [hrest, List.append_nil] at hsplit
    exact .inr ⟨hsplit, rfl⟩
  | cons c rest =>
    rw [hrest] at hsplit hhead
    obtain rfl : c = 32 := by simpa using hhead
    exact .inl hsplit.symm

/-! ### Words in a line of two parts -/

/-- A word without the separator lies in one of the parts. -/
theorem infix_parts {c : Byte} (hw : c ∉ w) (h : w <:+: a ++ c :: b) : w <:+: a ∨ w <:+: b := by
  induction a with
  | nil =>
    rw [List.nil_append, List.infix_cons_iff] at h
    refine h.imp_left fun hprefix => ?_
    cases w with
    | nil => exact List.nil_infix
    | cons d w => exact absurd ((List.cons_prefix_cons.mp hprefix).1 ▸ List.mem_cons_self) hw
  | cons d a ih =>
    rw [List.cons_append, List.infix_cons_iff] at h
    obtain hprefix | h := h
    · obtain hin | ⟨r, hr⟩ := List.prefix_or_prefix_of_prefix hprefix (List.prefix_append (d :: a) (c :: b))
      · exact .inl hin.isInfix
      · subst hr
        rw [← List.cons_append, List.prefix_append_right_inj] at hprefix
        cases r with
        | nil => exact .inl (by rw [List.append_nil])
        | cons e r =>
          refine absurd ?_ hw
          rw [(List.cons_prefix_cons.mp hprefix).1]
          exact List.mem_append_right _ List.mem_cons_self
    · exact (ih h).imp_left fun hin => List.infix_cons_iff.mpr (.inr hin)

/-- Two words around a separator lie around the one that is there. -/
theorem prefix_of_around {c : Byte} {u v : List Byte} (ha : c ∉ a) (hb : c ∉ b) (h : u ++ c :: v <:+: a ++ c :: b) :
    v <+: b := by
  obtain ⟨p, q, hpq⟩ := h
  have hshape : (p ++ u) ++ c :: (v ++ q) = a ++ c :: b := by
    rw [← hpq]
    simp only [List.append_assoc, List.cons_append]
  exact ⟨q, ((List.append_cons_inj_of_notMem ha hb).mp hshape.symm).2.2.symm⟩

/-- What stands in front of the first separator. -/
theorem cut_unique {c : Byte} {u v : List Byte} (ha : c ∉ a) (hb : c ∉ b) (h : a ++ c :: u = b ++ c :: v) : a = b := by
  have htake := congrArg (List.takeWhile (· ≠ c)) h
  rwa [takeWhile_cut ha, takeWhile_cut hb] at htake

/-- A text that begins with the separator is found behind a word. -/
theorem infix_of_append {c : Byte} {u v : List Byte} (ha : c ∉ a) (h : c :: u <:+: a ++ v) : c :: u <:+: v := by
  induction a with
  | nil => exact h
  | cons b a ih =>
    rw [List.mem_cons, not_or] at ha
    rw [List.cons_append, List.infix_cons_iff] at h
    obtain hprefix | h := h
    · exact absurd (List.cons_prefix_cons.mp hprefix).1 ha.1
    · exact ih ha.2 h

/-- `case " … " in *" w "*)`: a word is found with the separators around it in a list of words that are ended. -/
theorem infix_words_iff {c : Byte} {ws : List (List Byte)} (hw : c ∉ w) (hne : w ≠ []) (hws : ∀ v ∈ ws, c ∉ v) :
    c :: (w ++ [c]) <:+: c :: (ws.flatMap (· ++ [c]) ++ [c]) ↔ w ∈ ws := by
  induction ws with
  | nil =>
    refine iff_of_false (fun h => hne ?_) List.not_mem_nil
    have hlength := h.length_le
    simp only [List.length_cons, List.length_append, List.flatMap_nil, List.length_nil] at hlength
    exact List.length_eq_zero_iff.mp (by omega)
  | cons v ws ih =>
    have hv := hws v List.mem_cons_self
    have hshape : (v :: ws).flatMap (· ++ [c]) ++ [c] = v ++ c :: (ws.flatMap (· ++ [c]) ++ [c]) := by
      simp only [List.flatMap_cons, List.append_assoc, List.cons_append, List.nil_append]
    rw [hshape, List.infix_cons_iff, List.mem_cons, ← ih fun u hu => hws u (List.mem_cons_of_mem v hu)]
    refine or_congr ⟨fun h => ?_, fun h => ?_⟩ ⟨infix_of_append hv, fun h => h.trans (List.suffix_append v _).isInfix⟩
    · obtain ⟨r, hr⟩ := (List.cons_prefix_cons.mp h).2
      rw [List.append_assoc, List.cons_append] at hr
      exact cut_unique hw hv hr
    · rw [h, List.cons_prefix_cons]
      exact ⟨rfl, _, by rw [List.append_assoc]; rfl⟩

/-! ### Lines of the form `key=…` -/

/-- `/^key=/`. -/
def isOf (key line : List Byte) : Bool := key ++ [61] <+: line

section Keys
variable {key key' : List Byte}

theorem isOf_iff : isOf key line = true ↔ ∃ rest, line = key ++ 61 :: rest := by
  unfold isOf
  rw [decide_eq_true_eq]
  constructor
  · rintro ⟨rest, rfl⟩
    exact ⟨rest, by rw [List.append_assoc]; rfl⟩
  · rintro ⟨rest, rfl⟩
    exact ⟨rest, by rw [List.append_assoc]; rfl⟩

/-- A line has one key. -/
theorem isOf_unique (hkey : 61 ∉ key) (hkey' : 61 ∉ key') (h : isOf key line = true) (h' : isOf key' line = true) :
    key = key' := by
  obtain ⟨rest, rfl⟩ := isOf_iff.mp h
  obtain ⟨rest', heq⟩ := isOf_iff.mp h'
  exact cut_unique hkey hkey' heq

theorem isOf_of_ne (hkey : 61 ∉ key) (hkey' : 61 ∉ key') (hne : key' ≠ key) (h : isOf key line = true) :
    isOf key' line = false := by
  cases h' : isOf key' line with
  | false => rfl
  | true => exact absurd (isOf_unique hkey' hkey h' h) hne

end Keys

end Lines

end Thingino.Lib
