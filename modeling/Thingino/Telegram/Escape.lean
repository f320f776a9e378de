import Thingino.Lib.Escaper
import Thingino.Lib.JsonText
import Thingino.Lib.Utf8

/-! A text between the quotes of a JSON string.

`json_escape` goes over the text byte by byte, and stops where two more bytes and a NUL might not have room. What it
leaves is the beginning of the text that it took over, each byte by itself (`escapeLoop_eq`), so no escape sequence is
cut. But it knows no characters: a byte of one may be the last that it takes. -/
namespace Thingino.Telegram

open Lib Lib.JsonText

/-- The cases of the switch. -/
def escapeByte (c : Byte) : List Byte :=
  if c = 34 then [92, 34]
  else if c = 92 then [92, 92]
  else if c = 10 then [92, 110]
  else if c = 13 then [92, 114]
  else if c = 9 then [92, 116]
  else if c.toNat < 0x20 then []
  else [c]

/-- The loop, with `j` bytes in the buffer. The checks in the switch only repeat the one of the loop. -/
def escapeLoop (dstsz j : Nat) : List Byte → List Byte
  | [] => []
  | c :: src =>
    if j + 2 < dstsz then
      if dstsz - 1 ≤ j + (escapeByte c).length then escapeByte c
      else escapeByte c ++ escapeLoop dstsz (j + (escapeByte c).length) src
    else []

/-- What is written to `dst`, from its beginning on. -/
def jsonEscape (src : Option (List Byte)) (dstsz : Nat) : List Byte :=
  if dstsz = 0 then []
  else
    match src with
    | none => [0]
    | some src => escapeLoop dstsz 0 (cstr src) ++ [0]

/-! ### What it leaves -/

/-- The control characters that have an escape sequence, and all other bytes. -/
def isKept (c : Byte) : Bool := c = 9 || c = 10 || c = 13 || 0x20 ≤ c.toNat

theorem length_escapeByte (c : Byte) : (escapeByte c).length ≤ 2 := by
  unfold escapeByte
  split_ifs <;> simp

def jsonEscaper : Escaper Byte Byte := ⟨escapeByte, 2, length_escapeByte⟩

section Loop
variable {dstsz j : Nat} {s t : List Byte} {c : Byte}

theorem escape_cons (c : Byte) (s : List Byte) :
    jsonEscaper.escape (c :: s) = escapeByte c ++ jsonEscaper.escape s := rfl

theorem escapeLoop_eq (dstsz j : Nat) (s : List Byte) :
    escapeLoop dstsz j s = jsonEscaper.escape (jsonEscaper.taken dstsz j s) := by
  induction s generalizing j with
  | nil => rfl
  | cons c s ih =>
    rw [escapeLoop, Escaper.taken]
    by_cases hj : j + 2 < dstsz
    · rw [if_pos hj, if_pos (show j + jsonEscaper.most < dstsz from hj), escape_cons]
      split
      · -- Nothing more is taken when the buffer is full.
        rename_i hfull
        have hnil : jsonEscaper.taken dstsz (j + (escapeByte c).length) s = [] := by
          cases s with
          | nil => rfl
          | cons d s =>
            have hend : ¬j + (escapeByte c).length + jsonEscaper.most < dstsz := by
              show ¬j + (escapeByte c).length + 2 < dstsz
              omega
            rw [Escaper.taken, if_neg hend]
        show _ = escapeByte c ++ jsonEscaper.escape (jsonEscaper.taken dstsz (j + (escapeByte c).length) s)
        rw [hnil]
        exact (List.append_nil _).symm
      · rw [ih]
        rfl
    · rw [if_neg hj, if_neg (show ¬j + jsonEscaper.most < dstsz from hj)]
      rfl

/-- **Bounds**: all that is written has room in the buffer. -/
theorem length_jsonEscape (src : Option (List Byte)) (dstsz : Nat) : (jsonEscape src dstsz).length ≤ dstsz := by
  unfold jsonEscape
  split
  · exact Nat.zero_le _
  · rename_i hne
    cases src with
    | none => exact Nat.pos_of_ne_zero hne
    | some src =>
      have hlen := jsonEscaper.length_taken (Nat.pos_of_ne_zero hne) (cstr src)
      rw [List.length_append, List.length_singleton, escapeLoop_eq]
      omega

theorem mem_escapeByte {b : Byte} (h : b ∈ escapeByte c) : 0x20 ≤ b.toNat := by
  have hlow : ∀ d : Byte, 0x20 ≤ d.toNat → b ∈ [92, d] → 0x20 ≤ b.toNat := by
    intro d hd hb
    rcases List.mem_cons.mp hb with rfl | hb
    · decide
    · exact List.mem_singleton.mp hb ▸ hd
  unfold escapeByte at h
  split_ifs at h with h1 h2 h3 h4 h5 h6
  · exact hlow 34 (by decide) h
  · exact hlow 92 (by decide) h
  · exact hlow 110 (by decide) h
  · exact hlow 114 (by decide) h
  · exact hlow 116 (by decide) h
  · cases h
  · exact List.mem_singleton.mp h ▸ Nat.le_of_not_lt h6

theorem zero_notMem_escape (s : List Byte) : 0#8 ∉ jsonEscaper.escape s := by
  intro h
  obtain ⟨c, -, hc⟩ := List.mem_flatMap.mp h
  exact absurd (mem_escapeByte hc) (by decide)

/-- The string that is in the buffer. -/
theorem cstr_jsonEscape (hsize : 0 < dstsz) :
    cstr (jsonEscape (some s) dstsz) = jsonEscaper.escape (jsonEscaper.taken dstsz 0 (cstr s)) := by
  rw [jsonEscape, if_neg (Nat.ne_of_gt hsize)]
  show cstr (escapeLoop dstsz 0 (cstr s) ++ [0]) = _
  rw [escapeLoop_eq, cstr_append (zero_notMem_escape _)]
  exact List.append_nil _

theorem escapeByte_eq_nil_iff (c : Byte) : escapeByte c = [] ↔ isKept c = false := by
  simp only [isKept, Bool.or_eq_false_iff, decide_eq_false_iff_not]
  unfold escapeByte
  split_ifs with h1 h2 h3 h4 h5 h6
  · exact iff_of_false not_false fun h => h.2 (h1 ▸ by decide)
  · exact iff_of_false not_false fun h => h.2 (h2 ▸ by decide)
  · exact iff_of_false not_false fun h => h.1.1.2 h3
  · exact iff_of_false not_false fun h => h.1.2 h4
  · exact iff_of_false not_false fun h => h.1.1.1 h5
  · exact iff_of_true rfl ⟨⟨⟨h5, h3⟩, h4⟩, Nat.not_le_of_lt h6⟩
  · exact iff_of_false not_false fun h => h.2 (Nat.le_of_not_lt h6)

/-- **Decoding**: an escaped text stands for the text without the control characters that have no escape sequence. -/
theorem chars_escape (s : List Byte) : Chars (jsonEscaper.escape s) (s.filter isKept) := by
  induction s with
  | nil => exact Chars.nil
  | cons c s ih =>
    rw [escape_cons]
    unfold escapeByte
    split_ifs with h1 h2 h3 h4 h5 h6
    · subst h1
      exact Chars.escape (by decide) ih
    · subst h2
      exact Chars.escape (by decide) ih
    · subst h3
      exact Chars.escape (by decide) ih
    · subst h4
      exact Chars.escape (by decide) ih
    · subst h5
      exact Chars.escape (by decide) ih
    · have hdrop : isKept c = false := by
        refine (escapeByte_eq_nil_iff c).mp ?_
        rw [escapeByte, if_neg h1, if_neg h2, if_neg h3, if_neg h4, if_neg h5, if_pos h6]
      rw [List.filter_cons_of_neg (by rw [hdrop]; exact Bool.false_ne_true)]
      exact ih
    · have hkeep : isKept c = true := by
        simp only [isKept, h3, h4, h5, decide_false, Bool.false_or, decide_eq_true_eq]
        omega
      rw [List.filter_cons_of_pos hkeep]
      exact Chars.byte (Nat.le_of_not_lt h6) h1 h2 ih

/-! ### Characters -/

theorem escapeByte_high (h : 0x80 ≤ c.toNat) : escapeByte c = [c] := by
  have hne : ∀ d : Byte, d.toNat < 0x80 → c ≠ d := by
    intro d hd heq
    rw [heq] at h
    omega
  rw [escapeByte, if_neg (hne 34 (by decide)), if_neg (hne 92 (by decide)), if_neg (hne 10 (by decide)),
    if_neg (hne 13 (by decide)), if_neg (hne 9 (by decide)), if_neg (by omega)]

theorem escape_high (h : ∀ b ∈ s, 0x80 ≤ b.toNat) : jsonEscaper.escape s = s := by
  induction s with
  | nil => rfl
  | cons c s ih =>
    obtain ⟨hc, hs⟩ := List.forall_mem_cons.mp h
    rw [escape_cons, escapeByte_high hc, ih hs]
    rfl

theorem escapeByte_ascii (h : isAscii c = true) : (escapeByte c).all isAscii = true := by
  unfold escapeByte
  split_ifs
  · rfl
  · rfl
  · rfl
  · rfl
  · rfl
  · rfl
  · rw [List.all_cons, h]
    rfl

/-- What is escaped character by character is UTF-8. -/
theorem isUtf8_escape (chars : List Utf8Char) : IsUtf8 (jsonEscaper.escape (utf8 chars)) := by
  induction chars with
  | nil => exact ⟨[], rfl⟩
  | cons c chars ih =>
    rw [utf8_cons, Escaper.escape_append]
    refine isUtf8_append ?_ ih
    rcases c.ascii_or with ⟨a, hc, ha⟩ | hhigh
    · rw [hc]
      have hone : jsonEscaper.escape [a] = escapeByte a := List.append_nil _
      exact hone ▸ isUtf8_ascii (escapeByte_ascii ha)
    · rw [escape_high hhigh]
      exact ⟨[c], (List.append_nil c.bytes).symm⟩

/-- Escape sequences neither make UTF-8 of a text nor spoil it. -/
theorem isUtf8_escape_iff (run s : List Byte) : IsUtf8 (run ++ jsonEscaper.escape s) ↔ IsUtf8 (run ++ s.filter isKept) := by
  induction s generalizing run with
  | nil => rfl
  | cons c s ih =>
    rw [escape_cons]
    by_cases hkeep : isKept c = true
    · have hne : escapeByte c ≠ [] := fun h => by
        rw [(escapeByte_eq_nil_iff c).mp h] at hkeep
        cases hkeep
      have hcons : c :: s.filter isKept = [c] ++ s.filter isKept := rfl
      rw [List.filter_cons_of_pos hkeep, hcons]
      by_cases hc : isAscii c = true
      · have hone : [c].all isAscii = true := by rw [List.all_cons, hc]; rfl
        rw [isUtf8_around_iff (escapeByte_ascii hc) hne, isUtf8_around_iff hone (List.cons_ne_nil c [])]
        exact and_congr_right fun _ => ih []
      · have hhigh : 0x80 ≤ c.toNat := by
          rw [isAscii, decide_eq_true_eq] at hc
          omega
        rw [escapeByte_high hhigh, ← List.append_assoc, ← List.append_assoc]
        exact ih (run ++ [c])
    · rw [(escapeByte_eq_nil_iff c).mpr (Bool.eq_false_iff.mpr hkeep), List.filter_cons_of_neg hkeep]
      exact ih run

end Loop

end Thingino.Telegram
