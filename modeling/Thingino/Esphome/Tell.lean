import Thingino.Lib.CommandLine
import Thingino.Lib.Escaper

/-! An announcement that the device speaks itself, with `/sbin/tell`.

The text is put between double quotes, with a backslash in front of each quote and each backslash. What is left
for the shell to act on is a backquote, and a `$` where something is expanded. -/
namespace Thingino.Esphome

open Lib Lib.CommandLine

/-! ### The command -/

/-- The loop over the text; `j` bytes are in the buffer, and two more have room besides the NUL. -/
def escapeFrom (j : Nat) : List Byte → List Byte
  | [] => []
  | c :: text =>
    if j < 512 - 2 then
      if c = 34 ∨ c = 92 then 92 :: c :: escapeFrom (j + 2) text else c :: escapeFrom (j + 1) text
    else []

/-- What is in `escaped_text`, without the NUL. -/
def escapedText (text : List Byte) : List Byte := escapeFrom 0 (cstr text)

/-- The line that `run_tts_announcement` hands to the shell. -/
def runTtsAnnouncement (text : List Byte) : Option (List Byte) :=
  if cstr text = [] then none else some (snprintf 640 (ascii "/sbin/tell \"") (escapedText text) (ascii "\""))

/-! ### What is meant -/

/-- A backslash in front of each quote and each backslash. -/
def quoting : Escaper Byte Byte where
  bytes := escapeByte
  most := 2
  bound c := by
    unfold escapeByte
    split <;> simp

/-- **The property** of a text: the shell runs `/sbin/tell` with the text or, where it has no room, with the beginning
of it; the bytes with the NUL stay in their buffer. -/
def SpeaksText (text : List Byte) : Prop :=
  (escapedText text).length + 1 ≤ 512 ∧
    ∀ line, runTtsAnnouncement text = some line →
      ∃ spoken, spoken <+: text ∧ ((quoting.escape text).length + 1 ≤ 512 → spoken = text) ∧
        command line = some ⟨[ascii "/sbin/tell", spoken], []⟩

/-- The bytes that are taken over. -/
def kept (text : List Byte) : List Byte := quoting.taken 512 0 text

/-- The text is cut although there is room for it: its last byte would be the last one in the buffer. -/
def lastByteLost (text : List Byte) : Bool :=
  (quoting.escape text).length = 511 && text.getLast?.any fun c => escapeByte c = [c]

/-! ### The loop -/

section Loop
variable {text : List Byte}

theorem escapeFrom_eq (j : Nat) (text : List Byte) : escapeFrom j text = quoting.escape (quoting.taken 512 j text) := by
  induction text generalizing j with
  | nil => rfl
  | cons c text ih =>
    rw [escapeFrom, Escaper.taken]
    by_cases hj : j < 512 - 2
    · have hroom : j + quoting.most < 512 := Nat.add_lt_of_lt_sub hj
      rw [if_pos hj, if_pos hroom, Escaper.escape_cons]
      show _ = escapeByte c ++ quoting.escape (quoting.taken 512 (j + (escapeByte c).length) text)
      unfold escapeByte
      split
      · exact congrArg (fun s => 92 :: c :: s) (ih _)
      · exact congrArg (c :: ·) (ih _)
    · have hfull : ¬j + quoting.most < 512 := fun h => hj (Nat.lt_sub_of_add_lt h)
      rw [if_neg hj, if_neg hfull]
      rfl

/-- A text for which there is room is taken over but for such a last byte. -/
theorem kept_room_iff (hne : text ≠ []) :
    ((quoting.escape text).length + 1 ≤ 512 → kept text = text) ↔ lastByteLost text = false := by
  have hsplit : (quoting.escape text).length =
      (quoting.escape text.dropLast).length + (escapeByte (text.getLast hne)).length := by
    conv_lhs => rw [← List.dropLast_append_getLast hne]
    rw [Escaper.escape_append, List.length_append, Escaper.escape_singleton]
    rfl
  have hmost : quoting.most = 2 := rfl
  rw [kept, Escaper.taken_eq_self_iff, or_iff_right hne, lastByteLost, List.getLast?_eq_getLast_of_ne_nil hne,
    Option.any_some, Bool.and_eq_false_iff, decide_eq_false_iff_not, decide_eq_false_iff_not, hsplit, hmost]
  generalize text.getLast hne = c
  by_cases hc : c = 34 ∨ c = 92
  · have hlong : ¬[92#8, c] = [c] := fun h => absurd (congrArg List.length h) (Nat.succ_ne_self 1)
    simp only [escapeByte, if_pos hc, List.length_cons, List.length_nil]
    exact iff_of_true (fun _ => by omega) (Or.inr hlong)
  · simp only [escapeByte, if_neg hc, List.length_cons, List.length_nil, not_true_eq_false, or_false]
    omega

end Loop

/-! ### The shell -/

/-- The line is long enough for every text, and the shell sees the bytes that were taken over. -/
theorem command_tell (s : List Byte) (hnul : 0#8 ∉ s) (hlen : (quoting.escape s).length ≤ 511) :
    command (snprintf 640 (ascii "/sbin/tell \"") (quoting.escape s) (ascii "\"")) =
      if harmless s then some ⟨[ascii "/sbin/tell", s], []⟩ else none := by
  have hfront : ascii "/sbin/tell \"" = lead [ascii "/sbin/tell"] ++ [34] := by decide
  have hlead : (lead [ascii "/sbin/tell"]).length = 11 := by decide
  have hnul' : 0#8 ∉ quoting.escape s := by
    intro hmem
    obtain ⟨c, hc, hmem⟩ := List.mem_flatMap.mp hmem
    simp only [quoting, escapeByte] at hmem
    split at hmem
    · rcases List.mem_cons.mp hmem with h | h
      · exact absurd h (by decide)
      · exact hnul (List.mem_singleton.mp h ▸ hc)
    · exact hnul (List.mem_singleton.mp hmem ▸ hc)
  have hline : snprintf 640 (ascii "/sbin/tell \"") (quoting.escape s) (ascii "\"") =
      lead [ascii "/sbin/tell"] ++ 34 :: (quoting.escape s ++ [34]) := by
    rw [snprintf, cstr_eq_self hnul', hfront, List.take_of_length_le]
    · have hquote : ascii "\"" = [34] := rfl
      rw [hquote]
      simp
    · have hquote : (ascii "\"").length = 1 := rfl
      simp
      omega
  rw [hline, command_lead (by decide) (by decide), Escaper.escape, quoting, arguments_escaped]
  split <;> rfl

/-- **A text is spoken as it is** exactly where no byte of it that is taken over is a backquote or a `$` that is
expanded, and where it does not lose its last byte for the sake of one that is not there. -/
theorem speaksText_iff (text : List Byte) (hnul : 0#8 ∉ text) :
    SpeaksText text ↔ text = [] ∨ harmless (kept text) = true ∧ lastByteLost text = false := by
  have hescaped : escapedText text = quoting.escape (kept text) := by
    rw [escapedText, cstr_eq_self hnul, escapeFrom_eq, kept]
  have hroom : (quoting.escape (kept text)).length ≤ 511 := by
    have hlen := quoting.length_taken (Nat.succ_pos 511) text
    rw [Nat.zero_add] at hlen
    exact Nat.le_of_lt_succ hlen
  by_cases hne : text = []
  · refine iff_of_true ⟨?_, ?_⟩ (Or.inl hne)
    · rw [hescaped]
      omega
    · intro line hline
      have hnil : cstr text = [] := by rw [hne]; rfl
      rw [runTtsAnnouncement, if_pos hnil] at hline
      cases hline
  · have hkept : 0#8 ∉ kept text := fun hmem => hnul ((quoting.taken_isPrefix 512 0 text).mem hmem)
    rw [or_iff_right hne, ← kept_room_iff hne, SpeaksText, runTtsAnnouncement, cstr_eq_self hnul, if_neg hne,
      hescaped, and_iff_right (by omega)]
    constructor
    · intro h
      obtain ⟨spoken, -, hwhole, hcommand⟩ := h _ rfl
      rw [command_tell _ hkept hroom] at hcommand
      split at hcommand
      · rename_i hharmless
        cases hcommand
        exact ⟨hharmless, hwhole⟩
      · cases hcommand
    · intro h line hline
      cases hline
      refine ⟨kept text, quoting.taken_isPrefix 512 0 text, h.2, ?_⟩
      rw [command_tell _ hkept hroom, if_pos h.1]

/-- Quotes, backslashes and a price. -/
theorem speaksText_price : SpeaksText (ascii "say \"5 $\" \\") :=
  (speaksText_iff _ (by decide)).mpr (Or.inr (by decide))

/-- A text with a command in it. -/
theorem backquote_runs : 0#8 ∉ ascii "now `id`" ∧ (ascii "now `id`").length ≤ 511 ∧ ¬SpeaksText (ascii "now `id`") := by
  refine ⟨by decide, by decide, fun h => ?_⟩
  obtain ⟨spoken, -, -, hcommand⟩ := h.2 _ rfl
  have hnone : command (snprintf 640 (ascii "/sbin/tell \"") (escapedText (ascii "now `id`")) (ascii "\"")) = none := by
    decide
  rw [hnone] at hcommand
  cases hcommand

end Thingino.Esphome
