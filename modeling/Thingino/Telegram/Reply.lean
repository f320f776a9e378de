import Mathlib.Data.Nat.Digits.Lemmas
import Thingino.Lib.Shell
import Thingino.Telegram.Escape

/-! The answers of the bot.

`reply_text` puts a text into a JSON object and posts it. The body always has room, and no escape sequence is cut; but a
text that is too long is cut between two bytes, and where they belong to one character the body is not UTF-8. -/
namespace Thingino.Telegram

open Lib Lib.JsonText

/-- `TELEGRAM_TEXT_MAX`. -/
def telegramTextMax : Nat := 4096

/-- `%lld`. -/
def lld (n : BitVec 64) : List Byte :=
  if n.toInt < 0 then 45 :: Shell.digits n.toInt.natAbs else Shell.digits n.toInt.natAbs

/-- The body that is posted. -/
def replyText (chatId : BitVec 64) (text : List Byte) : List Byte :=
  snprintf (telegramTextMax + 128) (ascii "\x7b\"chat_id\":" ++ lld chatId ++ ascii ",\"text\":\"")
    (jsonEscape (some text) (telegramTextMax + 1)) (ascii "\"\x7d")

/-- What a body says. -/
def reply (chatId : BitVec 64) (text : List Byte) : Value :=
  .object [(ascii "chat_id", .number (lld chatId)), (ascii "text", .string text)]

/-- **The property** of a chat and a text: an escaped text stays in its buffer, whatever its size, and what is posted is
a JSON text in UTF-8 with the characters from the beginning of the text, but for most control characters. -/
def ValidReply (chatId : BitVec 64) (chars : List Utf8Char) : Prop :=
  (∀ dstsz, (jsonEscape (some (utf8 chars)) dstsz).length ≤ dstsz) ∧
    IsUtf8 (replyText chatId (utf8 chars)) ∧
    ∃ kept, kept <+: chars ∧ IsJson (replyText chatId (utf8 chars)) (reply chatId ((utf8 kept).filter isKept))

/-- The bytes that are taken over, and the first one that is not. -/
def taken (text : List Byte) : List Byte := jsonEscaper.taken (telegramTextMax + 1) 0 text

def firstLeftOut (text : List Byte) : Option Byte := (text.drop (taken text).length).head?

/-! ### The number of the chat -/

section Number
variable {n : Nat}

theorem length_digits {k : Nat} (hk : 0 < k) (h : n < 10 ^ k) : (Shell.digits n).length ≤ k := by
  unfold Shell.digits
  split
  · exact hk
  · rw [List.length_map, List.length_reverse]
    exact (Nat.digits_length_le_iff (by decide) n).mpr h

theorem isInt_digits (n : Nat) : isInt (Shell.digits n) = true := by
  by_cases hn : n = 0
  · subst hn
    rfl
  · rw [isInt, Shell.all_isDigit_digits, decide_eq_true (Shell.digits_ne_nil n),
      decide_eq_true (Shell.head?_digits_of_ne_zero hn)]
    rfl

end Number

section Reply
variable {chatId : BitVec 64} {text : List Byte} {chars : List Utf8Char}

theorem length_lld (chatId : BitVec 64) : (lld chatId).length ≤ 20 := by
  have hlow := BitVec.le_toInt chatId
  have hhigh := @BitVec.toInt_lt 64 chatId
  have hlen : (Shell.digits chatId.toInt.natAbs).length ≤ 19 := length_digits (by decide) (by omega)
  unfold lld
  split
  · rw [List.length_cons]
    omega
  · omega

theorem lld_ascii (chatId : BitVec 64) : (lld chatId).all isAscii = true := by
  have hdigits : (Shell.digits chatId.toInt.natAbs).all isAscii = true := by
    refine List.all_eq_true.mpr fun b hb => ?_
    have h := Shell.isDigit_of_mem_digits hb
    rw [isDigit, Bool.and_eq_true, decide_eq_true_eq, decide_eq_true_eq] at h
    exact decide_eq_true (by omega)
  unfold lld
  split
  · exact hdigits
  · exact hdigits

theorem denotes_lld (chatId : BitVec 64) : Denotes (.value (.number (lld chatId))) (lld chatId) := by
  unfold lld
  split
  · have h := @Denotes.number [45] _ [] [] (Or.inr rfl) (isInt_digits chatId.toInt.natAbs) rfl rfl
    rwa [List.append_nil, List.append_nil] at h
  · have h := @Denotes.number [] _ [] [] (Or.inl rfl) (isInt_digits chatId.toInt.natAbs) rfl rfl
    rwa [List.append_nil, List.append_nil] at h

/-! ### The body -/

/-- What stands in front of the text. -/
def front (chatId : BitVec 64) : List Byte := ascii "\x7b\"chat_id\":" ++ lld chatId ++ ascii ",\"text\":\""

/-- Every body has room. -/
theorem replyText_eq (hnul : 0#8 ∉ text) :
    replyText chatId text = front chatId ++ jsonEscaper.escape (taken text) ++ ascii "\"\x7d" := by
  have hlld := length_lld chatId
  have hroom := jsonEscaper.length_taken (Nat.succ_pos telegramTextMax) text
  rw [Nat.zero_add] at hroom
  rw [replyText, snprintf, cstr_jsonEscape (Nat.succ_pos telegramTextMax), cstr_eq_self hnul, List.take_of_length_le]
  · rfl
  · have hbefore : (ascii "\x7b\"chat_id\":").length = 11 := rfl
    have hbetween : (ascii ",\"text\":\"").length = 9 := rfl
    have hbehind : (ascii "\"\x7d").length = 2 := rfl
    have hmax : telegramTextMax = 4096 := rfl
    rw [List.length_append, List.length_append, List.length_append, List.length_append, hbefore, hbetween, hbehind]
    omega

theorem front_ascii (chatId : BitVec 64) : (front chatId).all isAscii = true := by
  rw [front, List.all_append, List.all_append, lld_ascii]
  rfl

/-- **Structure**: whatever is taken over, the body is an object with the chat and the text. -/
theorem isJson_reply (chatId : BitVec 64) (s : List Byte) :
    IsJson (front chatId ++ jsonEscaper.escape s ++ ascii "\"\x7d") (reply chatId (s.filter isKept)) := by
  have htext := denotes_member (chars_plain (s := ascii "text") (by decide)) (Denotes.string (chars_escape s))
  have hmembers := denotes_members (chars_plain (s := ascii "chat_id") (by decide)) (denotes_lld chatId) htext
  have hobject := isJson_of_denotes (Denotes.object hmembers)
  have hsame : front chatId ++ jsonEscaper.escape s ++ ascii "\"\x7d" = 123 :: (34 :: (ascii "chat_id" ++ [34]) ++
      58 :: (lld chatId ++ 44 :: (34 :: (ascii "text" ++ [34]) ++ 58 :: 34 :: (jsonEscaper.escape s ++ [34]))) ++ [125]) := by
    simp [front, ascii]
  rw [hsame]
  exact hobject

theorem taken_append_drop (text : List Byte) : text = taken text ++ text.drop (taken text).length :=
  jsonEscaper.taken_append_drop (telegramTextMax + 1) text

/-- **Between two characters** the text is cut well. -/
theorem validReply_of_boundary (hnul : 0#8 ∉ utf8 chars) (h : (firstLeftOut (utf8 chars)).any isTail = false) :
    ValidReply chatId chars := by
  obtain ⟨kept, left, hchars, htaken, -⟩ := boundary (taken_append_drop (utf8 chars)) h
  refine ⟨length_jsonEscape _, ?_, kept, ⟨left, hchars.symm⟩, ?_⟩
  · rw [replyText_eq hnul, htaken]
    exact isUtf8_append (isUtf8_append (isUtf8_ascii (front_ascii chatId)) (isUtf8_escape kept)) (isUtf8_ascii (by decide))
  · rw [replyText_eq hnul, htaken]
    exact isJson_reply chatId (utf8 kept)

/-- **In a character** the beginning of it is left in front of the quote. -/
theorem not_isUtf8_of_inside (hnul : 0#8 ∉ utf8 chars) (h : (firstLeftOut (utf8 chars)).any isTail = true) :
    ¬IsUtf8 (replyText chatId (utf8 chars)) := by
  obtain ⟨kept, c, part, behind, htaken, hc, hpart, hbehind⟩ := inside (taken_append_drop (utf8 chars)) h
  have hhigh : ∀ b ∈ part, 0x80 ≤ b.toNat := by
    rcases c.ascii_or with ⟨a, ha, -⟩ | hall
    · have hlen := congrArg List.length (ha.symm.trans hc)
      have hone := List.length_pos_iff.mpr hpart
      have htwo := List.length_pos_iff.mpr hbehind
      rw [List.length_append, List.length_singleton] at hlen
      omega
    · exact fun b hb => hall b (hc ▸ List.mem_append_left behind hb)
  have hbefore : IsUtf8 (front chatId ++ jsonEscaper.escape (utf8 kept)) :=
    isUtf8_append (isUtf8_ascii (front_ascii chatId)) (isUtf8_escape kept)
  obtain ⟨before, hbefore⟩ := hbefore
  intro hbody
  rw [replyText_eq hnul, htaken, Escaper.escape_append, escape_high hhigh, ← List.append_assoc, hbefore, List.append_assoc]
    at hbody
  exact not_isUtf8_part hc hpart hbehind rfl (isUtf8_of_append hbody)

/-- **Replies**: the body is as it should be exactly where the first byte that is left out, if there is one, does not
go on with a character. -/
theorem validReply_iff (chatId : BitVec 64) (chars : List Utf8Char) (hnul : 0#8 ∉ utf8 chars) :
    ValidReply chatId chars ↔ (firstLeftOut (utf8 chars)).any isTail = false := by
  constructor
  · intro hvalid
    by_contra h
    exact not_isUtf8_of_inside hnul (Bool.not_eq_false _ ▸ h) hvalid.2.1
  · exact validReply_of_boundary hnul

/-- Quotes, and a character of two bytes. -/
theorem validReply_cafe : ValidReply (-1001234#64) [⟨[34], rfl⟩, ⟨[99], rfl⟩, ⟨[0xC3, 0xA9], rfl⟩, ⟨[34], rfl⟩] :=
  (validReply_iff _ _ (by decide)).mpr (by decide)

end Reply

/-! ### A text that is too long -/

/-- 4094 letters, and a character of two bytes. -/
def longText : List Utf8Char := List.replicate 4094 ⟨[97], rfl⟩ ++ [⟨[0xC3, 0xA9], rfl⟩]

theorem utf8_longText : utf8 longText = List.replicate 4094 97 ++ [0xC3, 0xA9] := by
  have hletters : ∀ n, utf8 (List.replicate n ⟨[97], rfl⟩) = List.replicate n 97 := by
    intro n
    induction n with
    | zero => rfl
    | succ n ih => rw [List.replicate_succ, List.replicate_succ, utf8_cons, ih]; rfl
  have happend : utf8 longText = utf8 (List.replicate 4094 ⟨[97], rfl⟩) ++ utf8 [⟨[0xC3, 0xA9], rfl⟩] :=
    List.flatMap_append
  rw [happend, hletters]
  rfl

/-- The buffer has room for the first byte of the last character only. -/
theorem taken_longText : taken (utf8 longText) = List.replicate 4094 97 ++ [0xC3] := by
  have hletters : ∀ n, jsonEscaper.escape (List.replicate n 97) = List.replicate n 97 := by
    intro n
    induction n with
    | zero => rfl
    | succ n ih => rw [List.replicate_succ, escape_cons, ih]; rfl
  have hlen : (jsonEscaper.escape (List.replicate 4094 97)).length = 4094 := by rw [hletters, List.length_replicate]
  rw [utf8_longText, taken, Escaper.taken_append _ (by rw [hlen]; decide), hlen]
  rfl

theorem long_text_cut : 0#8 ∉ utf8 longText ∧ ¬ValidReply 0 longText := by
  have hnul : 0#8 ∉ utf8 longText := by
    rw [utf8_longText]
    intro h
    rcases List.mem_append.mp h with h | h
    · exact absurd (List.eq_of_mem_replicate h) (by decide)
    · exact absurd h (by decide)
  refine ⟨hnul, fun h => not_isUtf8_of_inside hnul ?_ h.2.1⟩
  have hlen : (List.replicate 4094 (97 : Byte) ++ [0xC3]).length = 4095 := by
    rw [List.length_append, List.length_replicate]
    rfl
  rw [firstLeftOut, taken_longText, hlen, utf8_longText, List.drop_append, List.drop_eq_nil_of_le
    (by rw [List.length_replicate]; decide), List.length_replicate]
  rfl

end Thingino.Telegram
