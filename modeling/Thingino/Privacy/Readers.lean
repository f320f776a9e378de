import Thingino.Privacy.Sidecar

/-! The other reader of the sidecar: the overlay that `CFG::load` of prudynt puts on its
configuration.

It reads the first 63 bytes into a buffer and works on those: the first `mode=` counts, wherever it
stands, quotes and blanks behind it are skipped, line ends among them, and then at most seven lower-case
letters are the word. `daynight-state` has no such bound, knows two more blanks and stops at the end of
the line. On what a writer of the sidecar leaves the two agree; this says on what else they do. -/
namespace Thingino.Privacy
open Lib

namespace Overlay

/-- The two settings of the day/night engine that the overlay decides. -/
structure Settings where
  enabled : Bool
  forceModeCfg : List Byte
deriving DecidableEq

/-- What a mode stands for. -/
def ofMode : Mode → Settings
  | .auto => ⟨true, []⟩
  | .day => ⟨false, ascii "day"⟩
  | .night => ⟨false, ascii "night"⟩

theorem ofMode_inj {m n : Mode} : ofMode m = ofMode n ↔ m = n := by
  cases m <;> cases n <;> decide

/-- What the overlay skips behind the key. -/
def isBlank (b : Byte) : Bool := b = 34 || b = 32 || b = 9 || b = 13 || b = 10

/-- `sbuf`, with no file or an unreadable one as an empty text. -/
def sbuf (file : Option (List Byte)) : List Byte := cstr ((file.getD []).take 63)

/-- `smode`. -/
def smode (sbuf : List Byte) : List Byte :=
  match strstr (ascii "mode=") sbuf with
  | none => []
  | some i => (((sbuf.drop (i + 5)).dropWhile isBlank).takeWhile isLower).take 7

/-- The overlay of `CFG::load`. -/
def load (file : Option (List Byte)) : Settings :=
  let smode := smode (sbuf file)
  if smode = ascii "night" then ⟨false, ascii "night"⟩
  else if smode = ascii "day" then ⟨false, ascii "day"⟩
  else if smode = ascii "auto" then ⟨true, []⟩
  else ⟨false, ascii "day"⟩

/-! ### The text behind the key -/

/-- What `daynight-state` skips behind the key. -/
def isSkipped (b : Byte) : Bool := b = 34 || isSpace b

/-- The quotes and white space behind a key at `i`, line ends included. -/
def gap (text : List Byte) (i : Nat) : List Byte := (text.drop (i + 5)).takeWhile isSkipped

/-- The letters behind them. -/
def word (text : List Byte) (i : Nat) : List Byte := ((text.drop (i + 5)).dropWhile isSkipped).takeWhile isLower

/-- The letters that are among the first 63 bytes. -/
def seen (text : List Byte) (i : Nat) : List Byte := (word text i).take (63 - (i + 5 + (gap text i).length))

/-- The mode of a word; what is no mode stands for forced day. -/
def modeOf (w : List Byte) : Mode := (Mode.ofWord w).getD .day

/-- Seven letters are enough. -/
theorem modeOf_take_seven (w : List Byte) : modeOf (w.take 7) = modeOf w := by
  by_cases hlen : w.length ≤ 7
  · rw [List.take_of_length_le hlen]
  · have hlong : ∀ {v : List Byte}, 7 ≤ v.length → Mode.ofWord v = none := by
      intro v hv
      have hne : ∀ m : Mode, v ≠ m.word := fun m heq => by
        rw [heq] at hv
        revert hv
        cases m <;> decide
      rw [Mode.ofWord, if_neg (show v ≠ ascii "auto" from hne .auto), if_neg (show v ≠ ascii "day" from hne .day),
        if_neg (show v ≠ ascii "night" from hne .night)]
    have htake : 7 ≤ (w.take 7).length := by
      rw [List.length_take]
      omega
    rw [modeOf, modeOf, hlong htake, hlong (by omega)]

theorem load_eq (file : Option (List Byte)) : load file = ofMode (modeOf (smode (sbuf file))) := by
  unfold load modeOf Mode.ofWord
  dsimp only
  by_cases hnight : smode (sbuf file) = ascii "night"
  · rw [hnight]
    decide
  · by_cases hday : smode (sbuf file) = ascii "day"
    · rw [hday]
      decide
    · by_cases hauto : smode (sbuf file) = ascii "auto"
      · rw [hauto]
        decide
      · simp only [if_neg hnight, if_neg hday, if_neg hauto]
        rfl

/-! ### `daynight-state` -/

theorem newline_notMem_key : (10 : Byte) ∉ ascii "mode=" := by decide

/-- The first line of a text. -/
theorem lines_eq_cons (text : List Byte) : ∃ rest, Sidecar.lines text = text.takeWhile (· ≠ 10) :: rest := by
  induction text with
  | nil => exact ⟨[], rfl⟩
  | cons b s ih =>
    obtain ⟨rest, hs⟩ := ih
    rw [Sidecar.lines]
    by_cases hb : b = 10
    · rw [if_pos hb, hb]
      exact ⟨_, rfl⟩
    · rw [if_neg hb, hs, List.takeWhile_cons_of_pos (by simpa using hb)]
      exact ⟨rest, rfl⟩

/-- The key stands on one line. -/
theorem takeWhile_key_append (t : List Byte) :
    (ascii "mode=" ++ t).takeWhile (· ≠ 10) = ascii "mode=" ++ t.takeWhile (· ≠ 10) :=
  List.takeWhile_append_of_pos (all_ne_of_notMem newline_notMem_key)

theorem key_isPrefix_iff (s : List Byte) : ascii "mode=" <+: s.takeWhile (· ≠ 10) ↔ ascii "mode=" <+: s := by
  refine ⟨fun h => h.trans (List.takeWhile_prefix _), ?_⟩
  rintro ⟨t, rfl⟩
  rw [takeWhile_key_append]
  exact List.prefix_append ..

/-- The line with the key, from behind the key on, is what follows the first key of the text up to the
end of the line. -/
theorem findSome_lines (text : List Byte) :
    ((Sidecar.lines text).findSome? fun line => (strstr (ascii "mode=") line).map fun i => line.drop (i + 5)) =
      (strstr (ascii "mode=") text).map fun i => (text.drop (i + 5)).takeWhile (· ≠ 10) := by
  induction text with
  | nil => rfl
  | cons b s ih =>
    by_cases hpre : ascii "mode=" <+: b :: s
    · obtain ⟨t, ht⟩ := hpre
      obtain ⟨rest, hlines⟩ := lines_eq_cons (b :: s)
      have hkey : strstr (ascii "mode=") (b :: s) = some 0 := if_pos ⟨t, ht⟩
      have hline : strstr (ascii "mode=") ((b :: s).takeWhile (· ≠ 10)) = some 0 := by
        rw [← ht, takeWhile_key_append]
        exact if_pos ⟨_, rfl⟩
      rw [hlines, List.findSome?_cons, hline, hkey, ← ht, takeWhile_key_append]
      rfl
    · rw [strstr, if_neg hpre, Option.map_map, Sidecar.lines]
      by_cases hb : b = 10
      · rw [if_pos hb, List.findSome?_cons]
        exact ih
      · obtain ⟨rest, hlines⟩ := lines_eq_cons s
        have hcons : (b :: s).takeWhile (· ≠ 10) = b :: s.takeWhile (· ≠ 10) :=
          List.takeWhile_cons_of_pos (decide_eq_true hb)
        have hnot : ¬ascii "mode=" <+: b :: s.takeWhile (· ≠ 10) := by
          rw [← hcons, key_isPrefix_iff]
          exact hpre
        rw [hlines, List.findSome?_cons] at ih
        rw [if_neg hb, hlines, List.findSome?_cons, strstr, if_neg hnot, Option.map_map]
        exact ih

/-- A cut leaves nothing to skip where there was nothing to skip. -/
theorem dropWhile_of_head {p : Byte → Bool} {s : List Byte} (h : ∀ b, s.head? = some b → p b = false) :
    s.dropWhile p = s := by
  cases s with
  | nil => rfl
  | cons b s => exact List.dropWhile_cons_of_neg (by simp [h b rfl])

theorem head_dropWhile {p : Byte → Bool} (s : List Byte) : ∀ b, (s.dropWhile p).head? = some b → p b = false := by
  intro b hb
  have := List.head?_dropWhile_not p s
  rw [hb] at this
  simpa using this

/-- The word on the line. -/
theorem word_of_line (rest : List Byte) :
    ((rest.takeWhile (· ≠ 10)).dropWhile isSkipped).takeWhile isLower =
      if (rest.takeWhile isSkipped).contains 10 then [] else (rest.dropWhile isSkipped).takeWhile isLower := by
  have hsplit : rest.takeWhile isSkipped ++ rest.dropWhile isSkipped = rest := List.takeWhile_append_dropWhile
  have hskip : ∀ b ∈ rest.takeWhile isSkipped, isSkipped b = true := fun _ => List.mem_takeWhile_imp
  have hhead := head_dropWhile (p := isSkipped) rest
  generalize rest.takeWhile isSkipped = gap at *
  generalize rest.dropWhile isSkipped = s at *
  subst hsplit
  split
  · rename_i hmem
    rw [List.contains_iff_mem] at hmem
    have hcut : ((gap.takeWhile (· ≠ 10)).length = gap.length) = False := by
      refine eq_false fun hlen => ?_
      have hall : gap.takeWhile (· ≠ 10) = gap := (List.takeWhile_prefix _).eq_of_length hlen
      exact of_decide_eq_true (List.takeWhile_eq_self_iff.mp hall 10 hmem) rfl
    have hline : ∀ b ∈ (gap ++ s).takeWhile (· ≠ 10), isSkipped b = true := by
      rw [List.takeWhile_append, if_neg (by simp only [hcut, not_false_eq_true])]
      exact fun b hb => hskip b ((List.takeWhile_prefix _).subset hb)
    rw [List.dropWhile_eq_nil_iff.mpr hline]
    rfl
  · rename_i hmem
    rw [List.contains_iff_mem] at hmem
    have hgap : ∀ b ∈ gap, decide (b ≠ 10) = true := all_ne_of_notMem hmem
    have hhead' : ∀ b, (s.takeWhile (· ≠ 10)).head? = some b → isSkipped b = false := by
      intro b hb
      refine hhead b ?_
      cases s with
      | nil => exact hb
      | cons c s =>
        rw [List.takeWhile_cons] at hb
        split at hb
        · exact hb
        · cases hb
    have hlower : (fun b => decide (isLower b = true ∧ decide (b ≠ 10) = true)) = isLower := by
      funext b
      refine Bool.eq_iff_iff.mpr ⟨fun h => (of_decide_eq_true h).1, fun h => decide_eq_true ⟨h, ?_⟩⟩
      exact decide_eq_true fun h10 => absurd (h10 ▸ h) (by decide)
    rw [List.takeWhile_append_of_pos hgap, List.dropWhile_append_of_pos hskip, dropWhile_of_head hhead',
      List.takeWhile_takeWhile, hlower]

/-- What `daynight-state get` makes of a text with a key. -/
theorem get_of_key {text : List Byte} {i : Nat} (h : strstr (ascii "mode=") text = some i) :
    Sidecar.get (some text) = if (gap text i).contains 10 then .day else modeOf (word text i) := by
  have hbehind : Sidecar.behindKey text = (text.drop (i + 5)).takeWhile (· ≠ 10) := by
    rw [Sidecar.behindKey, findSome_lines, h]
    rfl
  have hget : Sidecar.get (some text) =
      modeOf (((Sidecar.behindKey text).dropWhile isSkipped).takeWhile isLower) := rfl
  rw [hget, hbehind, word_of_line]
  exact apply_ite modeOf _ _ _

theorem get_of_no_key {text : List Byte} (h : strstr (ascii "mode=") text = none) : Sidecar.get (some text) = .day := by
  have hbehind : Sidecar.behindKey text = [] := by
    rw [Sidecar.behindKey, findSome_lines, h]
    rfl
  have hget : Sidecar.get (some text) =
      modeOf (((Sidecar.behindKey text).dropWhile isSkipped).takeWhile isLower) := rfl
  rw [hget, hbehind]
  rfl

/-! ### The overlay -/

theorem isSkipped_of_isBlank {b : Byte} (h : isBlank b = true) : isSkipped b = true := by
  revert b
  decide

/-- The two blanks that only `daynight-state` knows. -/
theorem isBlank_of_isSkipped {b : Byte} (h : isSkipped b = true) (h11 : b ≠ 11) (h12 : b ≠ 12) : isBlank b = true := by
  revert b
  decide

theorem isLower_of_isSkipped {b : Byte} (h : isSkipped b = true) : isLower b = false := by
  revert b
  decide

/-- The overlay stops at a byte that it does not skip. -/
theorem word_nil_of_stop {gap s : List Byte} {stop : Byte} (n : Nat) (hskip : ∀ b ∈ gap, isSkipped b = true)
    (hmem : stop ∈ gap) (hstop : isBlank stop = false) :
    (((gap ++ s).take n).dropWhile isBlank).takeWhile isLower = [] := by
  have hsplit : gap.takeWhile isBlank ++ gap.dropWhile isBlank = gap := List.takeWhile_append_dropWhile
  have hhead := head_dropWhile (p := isBlank) gap
  cases hrest : gap.dropWhile isBlank with
  | nil =>
    have := List.dropWhile_eq_nil_iff.mp hrest stop hmem
    rw [hstop] at this
    cases this
  | cons c g =>
    have hc : isBlank c = false := hhead c (by rw [hrest]; rfl)
    have hcgap : c ∈ gap := hsplit ▸ List.mem_append_right _ (hrest ▸ List.mem_cons_self)
    have hlead : ∀ b ∈ (gap.takeWhile isBlank).take n, isBlank b = true := fun b hb =>
      List.mem_takeWhile_imp ((List.take_prefix _ _).subset hb)
    rw [← hsplit, hrest, List.append_assoc, List.take_append, List.dropWhile_append_of_pos hlead]
    cases n - (gap.takeWhile isBlank).length with
    | zero => rfl
    | succ m =>
      rw [List.cons_append, List.take_succ_cons, List.dropWhile_cons_of_neg (by simp [hc]),
        List.takeWhile_cons_of_neg (by simp [isLower_of_isSkipped (hskip c hcgap)])]

/-- The word in the buffer. -/
theorem word_of_buffer (rest : List Byte) (n : Nat) :
    (((rest.take n).dropWhile isBlank).takeWhile isLower) =
      if (rest.takeWhile isSkipped).contains 11 || (rest.takeWhile isSkipped).contains 12 then []
      else ((rest.dropWhile isSkipped).takeWhile isLower).take (n - (rest.takeWhile isSkipped).length) := by
  have hsplit : rest.takeWhile isSkipped ++ rest.dropWhile isSkipped = rest := List.takeWhile_append_dropWhile
  have hskip : ∀ b ∈ rest.takeWhile isSkipped, isSkipped b = true := fun _ => List.mem_takeWhile_imp
  have hhead := head_dropWhile (p := isSkipped) rest
  generalize rest.takeWhile isSkipped = gap at *
  generalize rest.dropWhile isSkipped = s at *
  subst hsplit
  split
  · rename_i hmem
    rw [Bool.or_eq_true, List.contains_iff_mem, List.contains_iff_mem] at hmem
    exact hmem.elim (fun h => word_nil_of_stop n hskip h (by decide)) fun h => word_nil_of_stop n hskip h (by decide)
  · rename_i hmem
    rw [Bool.or_eq_true, List.contains_iff_mem, List.contains_iff_mem, not_or] at hmem
    have hgap : ∀ b ∈ gap.take n, isBlank b = true := fun b hb =>
      have hb := (List.take_prefix n gap).subset hb
      isBlank_of_isSkipped (hskip b hb) (fun h => hmem.1 (h ▸ hb)) fun h => hmem.2 (h ▸ hb)
    have hhead' : ∀ b, (s.take (n - gap.length)).head? = some b → isBlank b = false := by
      intro b hb
      refine Bool.eq_false_iff.mpr fun hblank => ?_
      rw [List.head?_take] at hb
      split at hb
      · cases hb
      · exact absurd (isSkipped_of_isBlank hblank) (by rw [hhead b hb]; decide)
    rw [List.take_append, List.dropWhile_append_of_pos hgap, dropWhile_of_head hhead', List.take_takeWhile]

theorem sbuf_some {text : List Byte} (hnul : 0 ∉ text) : sbuf (some text) = text.take 63 := by
  have hnul' : 0#8 ∉ text.take 63 := fun h0 => hnul ((List.take_prefix _ _).subset h0)
  have hcut := cstr_append hnul' []
  rw [List.append_nil] at hcut
  exact hcut.trans (List.append_nil _)

/-- A key that is not in the text is not in the buffer either, nor is one behind it. -/
theorem strstr_buffer_eq_none {text : List Byte} {n : Nat}
    (h : ∀ i, strstr (ascii "mode=") text = some i → n < i + 5) : strstr (ascii "mode=") (text.take n) = none := by
  cases hfound : strstr (ascii "mode=") (text.take n) with
  | none => rfl
  | some j =>
    have hlen := strstr_length hfound
    have hfirst := strstr_append hfound (text.drop n)
    rw [List.take_append_drop] at hfirst
    have hbehind := h j hfirst
    have hkey : (ascii "mode=").length = 5 := rfl
    rw [List.length_take] at hlen
    omega

/-- What the overlay makes of a text with a key. -/
theorem load_of_key {text : List Byte} {i : Nat} (hnul : 0 ∉ text) (h : strstr (ascii "mode=") text = some i) :
    load (some text) = ofMode (if (gap text i).contains 11 || (gap text i).contains 12 then .day else modeOf (seen text i)) := by
  rw [load_eq, sbuf_some hnul, smode]
  by_cases hin : i + 5 ≤ 63
  · rw [strstr_take h hin]
    dsimp only
    rw [List.drop_take, word_of_buffer, modeOf_take_seven, apply_ite modeOf, Nat.sub_sub]
    rfl
  · have hnone : strstr (ascii "mode=") (text.take 63) = none := by
      refine strstr_buffer_eq_none fun j hj => ?_
      rw [h, Option.some.injEq] at hj
      omega
    have hseen : seen text i = [] := by
      rw [seen, Nat.sub_eq_zero_of_le (by omega), List.take_zero]
    have hnil : modeOf [] = .day := rfl
    rw [hnone, hseen, hnil, ite_self]

theorem load_of_no_key {text : List Byte} (hnul : 0 ∉ text) (h : strstr (ascii "mode=") text = none) :
    load (some text) = ofMode .day := by
  have hnone : strstr (ascii "mode=") (text.take 63) = none :=
    strstr_buffer_eq_none fun j hj => by
      rw [h] at hj
      cases hj
  rw [load_eq, sbuf_some hnul, smode, hnone]
  rfl

/-! ### Where the two agree -/

/-- A text that both readers take for the same mode. With a line end in the gap, `daynight-state` finds
no word; with a vertical tab or a form feed, the overlay finds none; and the overlay sees the word as far
as the buffer goes. -/
def Agreeable (text : List Byte) : Prop :=
  ∀ i, strstr (ascii "mode=") text = some i →
    (if (gap text i).contains 10 then Mode.day else modeOf (word text i)) =
      if (gap text i).contains 11 || (gap text i).contains 12 then Mode.day else modeOf (seen text i)

/-- **The readers agree exactly** on the texts that say the same mode by either rule; and so on every
text with the word on the line of the first key, behind quotes, spaces, tabs and carriage returns only,
within the first 63 bytes. -/
theorem readers_agree_iff {file : Option (List Byte)} (hnul : ∀ text ∈ file, 0 ∉ text) :
    (load file = ofMode (Sidecar.get file) ↔ ∀ text ∈ file, Agreeable text) ∧
      ((∀ text ∈ file, ∀ i, strstr (ascii "mode=") text = some i →
          (∀ b ∈ gap text i, b ≠ 10 ∧ b ≠ 11 ∧ b ≠ 12) ∧ i + 5 + (gap text i).length + (word text i).length ≤ 63) →
        load file = ofMode (Sidecar.get file)) := by
  have hiff : load file = ofMode (Sidecar.get file) ↔ ∀ text ∈ file, Agreeable text := by
    cases file with
    | none => exact ⟨fun _ _ => (nomatch ·), fun _ => rfl⟩
    | some text =>
      have hnul := hnul text rfl
      have hall : (∀ t ∈ some text, Agreeable t) ↔ Agreeable text :=
        ⟨fun h => h text rfl, fun h t ht => Option.some.inj ht ▸ h⟩
      rw [hall, Agreeable]
      cases hkey : strstr (ascii "mode=") text with
      | none =>
        rw [load_of_no_key hnul hkey, get_of_no_key hkey]
        exact ⟨fun _ _ => (nomatch ·), fun _ => rfl⟩
      | some i =>
        rw [load_of_key hnul hkey, get_of_key hkey, ofMode_inj]
        refine ⟨fun h j hj => ?_, fun h => (h i rfl).symm⟩
        cases hj
        exact h.symm
  refine ⟨hiff, fun hplain => hiff.mpr fun text htext i hi => ?_⟩
  obtain ⟨hgap, hfits⟩ := hplain text htext i hi
  have hseen : seen text i = word text i := List.take_of_length_le (by omega)
  have hline : ¬(gap text i).contains 10 = true := fun h => (hgap 10 (List.contains_iff_mem.mp h)).1 rfl
  have hstop : ¬((gap text i).contains 11 || (gap text i).contains 12) = true := by
    rw [Bool.or_eq_true, List.contains_iff_mem, List.contains_iff_mem]
    exact fun h => h.elim (fun h => (hgap 11 h).2.1 rfl) fun h => (hgap 12 h).2.2 rfl
  rw [if_neg hline, if_neg hstop, hseen]

/-- A line that someone has edited by hand. -/
def edited : List Byte := ascii "# day/night\nmode= \"auto\"\r\n"

theorem readers_agree_edited : 0 ∉ edited ∧ load (some edited) = ofMode (Sidecar.get (some edited)) := by
  have hnul : 0 ∉ edited := by decide
  have hkey : strstr (ascii "mode=") edited = some 12 := by decide
  refine ⟨hnul, (readers_agree_iff fun text htext => ?_).2 fun text htext i hi => ?_⟩
  · exact Option.some.inj htext ▸ hnul
  · obtain rfl : edited = text := Option.some.inj htext
    rw [hkey, Option.some.injEq] at hi
    subst hi
    decide

/-- A line end behind the key, a vertical tab behind it, and a comment that fills the buffer: one of
the readers finds `auto`, the other one has `day`. -/
theorem readers_differ :
    load (some (ascii "mode=\nauto\n")) = ofMode .auto ∧ Sidecar.get (some (ascii "mode=\nauto\n")) = .day ∧
    load (some (ascii "mode=\x0bauto\n")) = ofMode .day ∧ Sidecar.get (some (ascii "mode=\x0bauto\n")) = .auto ∧
    load (some (List.replicate 63 35 ++ ascii "\nmode=auto\n")) = ofMode .day ∧
    Sidecar.get (some (List.replicate 63 35 ++ ascii "\nmode=auto\n")) = .auto := by
  decide +kernel

end Overlay

end Thingino.Privacy
