import Thingino.Lib.Grep
import Thingino.System.TimeZone

/-! The zones that `tz-update` looks up and repairs.

`tz.json` is a list of names with a zone each. The lookup takes the first entry with the name and a colon
in its line, whatever stands before the name; the test for unsafe hours and the repair know some ways to
write an hour and not others. What a rule says is read by `PosixTz.parseRule`. -/
namespace Thingino.System.TimeZone
open Lib Calendar PosixTz

/-! ### Zones and entries -/

/-- Letters, digits, signs, angle brackets and colons. -/
def isHeadByte (b : Byte) : Bool := isAlnum b || b = 43 || b = 45 || b = 60 || b = 62 || b = 58
where
  isAlnum (b : Byte) : Bool := isDigit b || 65 ≤ b.toNat && b.toNat ≤ 90 || 97 ≤ b.toNat && b.toNat ≤ 122

/-- The letters of a name, with blanks, signs, slashes and underscores. -/
def isNameByte (b : Byte) : Bool := isHeadByte.isAlnum b || b = 32 || b = 43 || b = 45 || b = 47 || b = 95

/-- A zone: the names and offsets, which do not begin with a sign, and the rules. -/
structure Zone where
  head : List Byte
  rules : List RuleText
  plain : head.all isHeadByte = true
  named : head ≠ [] ∧ head.head? ≠ some 45
  valid : ∀ r ∈ rules, r.rule.Valid

def Zone.text (z : Zone) : List Byte := z.head ++ z.rules.flatMap fun r => 44 :: r.text

structure Entry where
  name : List Byte
  zone : Zone
  plain : name.all isNameByte = true
  named : name ≠ [] ∧ name.head? ≠ some 45

/-- What stands between the braces. -/
def Entry.body (e : Entry) : List Byte :=
  ascii "\"n\":\"" ++ (e.name ++ (ascii "\",\"v\":\"" ++ (e.zone.text ++ [34])))

def tzJson : List Entry → List Byte
  | [] => ascii "[]\n"
  | e :: es => ascii "[\x7b" ++ (e.body ++ (es.flatMap (fun e => ascii "\x7d,\x7b" ++ e.body) ++ ascii "\x7d]\n"))

/-- The line that the lookup sees. -/
def Entry.line (e : Entry) : List Byte := e.name ++ 58 :: e.zone.text

/-- What the script makes of a name. -/
def resolved (t : Tools) (rounds : Nat) (entries : List Entry) (name : List Byte) : Option (List Byte) :=
  resolveTz t rounds name (lookupTzjson name (tzJson entries))

/-! ### What is asked of a zone -/

/-- The carry does not go beyond Saturday. -/
def CarryStays (r : Rule) : Prop :=
  match r.date with
  | .julian _ => True
  | .month _ _ d => d + r.time.hour / 24 ≤ 6

def weekdayOk : Date → Prop
  | .julian _ => True
  | .month _ _ d => d ≤ 6

/-- A rule that is fit for uClibc and stands for the instants of another, or for those a week before. -/
structure Repair (r r' : Rule) : Prop where
  hour : r'.time.hour ≤ 24
  weekday : weekdayOk r'.date
  kept : r'.time.minute = r.time.minute ∧ r'.time.second = r.time.second
  instants : CarryStays r → ∀ y, r'.seconds y = r.seconds y ∨ r'.seconds y + 7 * 86400 = r.seconds y

structure Repaired (z : Zone) (out : List Byte) : Prop where
  head : (out.splitOn 44).head? = some z.head
  rules : List.Forall₂ (fun r f => ∃ r', parseRule f = some r' ∧ Repair r.rule r') z.rules (ruleTexts out)

/-- **The claim of the script** for an entry: its zone is found; it is passed through, or repaired when an hour is
beyond 24. -/
structure Faithful (t : Tools) (rounds : Nat) (entries : List Entry) (e : Entry) : Prop where
  found : lookupTzjson e.name (tzJson entries) = e.zone.text
  passed : (∀ r ∈ e.zone.rules, r.rule.time.hour ≤ 24) → resolved t rounds entries e.name = some e.zone.text
  repaired : (∃ r ∈ e.zone.rules, 24 < r.rule.time.hour) →
    ∃ out, resolved t rounds entries e.name = some out ∧ Repaired e.zone out

/-- The hour is written, and without a zero in front. -/
def PlainHour (r : RuleText) : Prop := ∃ t, r.time = some t ∧ t.hour.text.head? ≠ some 48

def isMonth : Date → Prop
  | .julian _ => False
  | .month .. => True

/-- The rules that the repair is made for. -/
structure Repairable (z : Zone) : Prop where
  month : ∀ r ∈ z.rules, 24 < r.rule.time.hour → isMonth r.rule.date
  whole : ∀ r ∈ z.rules, 24 < r.rule.time.hour → r.rule.time.minute = 0 ∧ r.rule.time.second = 0
  seen : ∃ r ∈ z.rules, 24 < r.rule.time.hour ∧ PlainHour r

/-! ### Bytes -/

theorem Zone.notMem_text (z : Zone) {b : Byte} (hhead : isHeadByte b = false)
    (h : b ≠ 74 ∧ b ≠ 77 ∧ b ≠ 46 ∧ b ≠ 47 ∧ b ≠ 58) (hcomma : b ≠ 44) : b ∉ z.text := by
  have hdigit : isDigit b = false := by
    simp [isHeadByte, isHeadByte.isAlnum] at hhead
    exact hhead.1.1.1.1.1.1.1
  have hnot : b ∉ z.head := fun hmem => Bool.false_ne_true (hhead.symm.trans (List.all_eq_true.mp z.plain b hmem))
  rw [Zone.text, List.mem_append, List.mem_flatMap, not_or]
  refine ⟨hnot, fun ⟨r, _, hmem⟩ => ?_⟩
  obtain heq | hmem := List.mem_cons.mp hmem
  · exact hcomma heq
  · exact r.notMem_text hdigit h hmem

theorem Entry.notMem_name (e : Entry) {b : Byte} (h : isNameByte b = false) : b ∉ e.name := fun hmem =>
  Bool.false_ne_true (h.symm.trans (List.all_eq_true.mp e.plain b hmem))

/-! ### The lookup -/

section Replace
variable {c : Byte} {pat rep : List Byte}

/-- Nothing is replaced where the first byte of the pattern does not occur. -/
theorem replaceFrom_append {a : List Byte} (h : c ∉ a) (s : List Byte) :
    replaceFrom (c :: pat) rep 0 (a ++ s) = a ++ replaceFrom (c :: pat) rep 0 s := by
  induction a with
  | nil => rfl
  | cons b a ih =>
    rw [List.mem_cons, not_or] at h
    have hno : ¬c :: pat <+: b :: (a ++ s) := fun hp => h.1 (List.cons_prefix_cons.mp hp).1
    rw [List.cons_append, replaceFrom, if_neg hno, ih h.2, List.cons_append]

theorem replaceFrom_length (pat rep a s : List Byte) :
    replaceFrom pat rep a.length (a ++ s) = replaceFrom pat rep 0 s := by
  induction a with
  | nil => rfl
  | cons b a ih => exact ih

theorem replaceFrom_match (s : List Byte) :
    replaceFrom (c :: pat) rep 0 (c :: pat ++ s) = rep ++ replaceFrom (c :: pat) rep 0 s := by
  rw [List.cons_append, replaceFrom, if_pos ⟨s, rfl⟩, List.length_cons, Nat.add_sub_cancel, replaceFrom_length]

end Replace

theorem Entry.notMem_body (e : Entry) {b : Byte} (hname : isNameByte b = false) (hhead : isHeadByte b = false)
    (h : b ≠ 74 ∧ b ≠ 77 ∧ b ≠ 46 ∧ b ≠ 47 ∧ b ≠ 58) (hcomma : b ≠ 44)
    (hkeys : b ∉ ascii "\"n\":\"" ∧ b ∉ ascii "\",\"v\":\"" ∧ b ≠ 34) : b ∉ e.body := by
  have hzone := e.zone.notMem_text hhead h hcomma
  have hentry := e.notMem_name hname
  rw [Entry.body, List.mem_append, List.mem_append, List.mem_append, List.mem_append, List.mem_singleton]
  tauto

/-- The first `sed`: one entry to a line. -/
theorem replaceFrom_tzJson (e : Entry) (es : List Entry) :
    replaceFrom (ascii "\x7d,\x7b") [10] 0 (tzJson (e :: es)) =
      ascii "[\x7b" ++ e.body ++ (es.flatMap (fun e => 10 :: e.body) ++ ascii "\x7d]\n") := by
  have hbody : ∀ e : Entry, (125 : Byte) ∉ e.body := fun e =>
    e.notMem_body (by decide) (by decide) (by decide) (by decide) (by decide)
  have hrest : replaceFrom (ascii "\x7d,\x7b") [10] 0 (es.flatMap (fun e => ascii "\x7d,\x7b" ++ e.body) ++ ascii "\x7d]\n") =
      es.flatMap (fun e => 10 :: e.body) ++ ascii "\x7d]\n" := by
    induction es with
    | nil => decide
    | cons e es ih =>
      have hpat : ascii "\x7d,\x7b" = 125 :: ascii ",\x7b" := by decide
      rw [List.flatMap_cons, List.flatMap_cons, List.append_assoc, List.append_assoc]
      rw [hpat] at ih ⊢
      rw [replaceFrom_match, replaceFrom_append (hbody e), ih, List.append_assoc]
      rfl
  have hpat : ascii "\x7d,\x7b" = 125 :: ascii ",\x7b" := by decide
  rw [tzJson]
  rw [hpat] at hrest ⊢
  rw [replaceFrom_append (by decide), replaceFrom_append (hbody e), hrest, List.append_assoc]

/-- The last line still has the closing bracket. -/
def rawLines (first : List Byte) : List Entry → List (List Byte)
  | [] => [first ++ ascii "\x7d]"]
  | e :: es => first :: rawLines e.body es

theorem Entry.newline_notMem_body (e : Entry) : (10 : Byte) ∉ e.body :=
  e.notMem_body (by decide) (by decide) (by decide) (by decide) (by decide)

theorem splitOn_rawLines {first : List Byte} (hfirst : (10 : Byte) ∉ first) (es : List Entry) :
    (first ++ (es.flatMap (fun e => 10 :: e.body) ++ ascii "\x7d]\n")).splitOn 10 = rawLines first es ++ [[]] := by
  induction es generalizing first with
  | nil =>
    have hline : (10 : Byte) ∉ first ++ ascii "\x7d]" := by
      rw [List.mem_append, not_or]
      exact ⟨hfirst, by decide⟩
    have htext : first ++ ([].flatMap (fun e : Entry => 10 :: e.body) ++ ascii "\x7d]\n") =
        (first ++ ascii "\x7d]") ++ 10 :: [] := by
      rw [List.append_assoc]
      rfl
    rw [htext, Lines.splitOn_cut hline]
    rfl
  | cons e es ih =>
    rw [List.flatMap_cons, List.cons_append, List.cons_append, Lines.splitOn_cut hfirst, List.append_assoc,
      ih e.newline_notMem_body]
    rfl

theorem textLines_append {ls : List (List Byte)} {s : List Byte} (h : s.splitOn 10 = ls ++ [[]]) : textLines s = ls := by
  rw [textLines, h, List.getLast?_concat, if_pos rfl, List.dropLast_concat]

/-- What the other two `sed` make of a line. -/
def cleaned (line : List Byte) : List Byte := reorder (stripClose (stripOpen line))

theorem matchEntry_body (e : Entry) : matchEntry e.body = some (e.name, e.zone.text, []) := by
  have hname : (34 : Byte) ∉ e.name := e.notMem_name (by decide)
  have hzone : (34 : Byte) ∉ e.zone.text := e.zone.notMem_text (by decide) (by decide) (by decide)
  have hkey : ascii "\",\"v\":\"" = 34 :: ascii ",\"v\":\"" := by decide
  have hdrop : e.body.drop 5 = e.name ++ 34 :: (ascii ",\"v\":\"" ++ (e.zone.text ++ [34])) := by
    rw [Entry.body, hkey]
    exact List.drop_left' rfl
  have hbehind : (34 :: (ascii ",\"v\":\"" ++ (e.zone.text ++ [34]))).drop 7 = e.zone.text ++ 34 :: [] :=
    @List.drop_left' _ (ascii "\",\"v\":\"") _ 7 rfl
  rw [matchEntry, if_pos ⟨_, rfl⟩, hdrop, takeWhile_cut hname, dropWhile_cut hname]
  dsimp only
  rw [hkey, if_pos ⟨_, rfl⟩, hbehind, takeWhile_cut hzone, dropWhile_cut hzone]

theorem reorder_body (e : Entry) : reorder e.body = e.line := by
  have hmatch := matchEntry_body e
  have hcons : ∃ b s, e.body = b :: s := ⟨34, _, rfl⟩
  obtain ⟨b, s, hbody⟩ := hcons
  rw [hbody] at hmatch ⊢
  rw [reorder, hmatch]
  dsimp only
  rw [List.append_nil, Entry.line]

/-- Brackets or not, a line becomes the line of its entry. -/
theorem cleaned_body (e : Entry) : cleaned e.body = e.line ∧ cleaned (e.body ++ ascii "\x7d]") = e.line ∧
    cleaned (ascii "[\x7b" ++ e.body) = e.line ∧ cleaned (ascii "[\x7b" ++ e.body ++ ascii "\x7d]") = e.line := by
  have hopen : ∀ s, stripOpen (ascii "[\x7b" ++ s) = s := fun s => if_pos ⟨s, rfl⟩
  have hplain : ∀ s, stripOpen (e.body ++ s) = e.body ++ s := fun s =>
    if_neg fun hp => absurd (List.cons_prefix_cons.mp hp).1 (by decide)
  have hclose : ∀ s, stripClose (s ++ ascii "\x7d]") = s := fun s => by
    rw [stripClose, if_pos (List.suffix_append _ _), List.length_append]
    exact List.take_left' (Nat.add_sub_cancel _ 2).symm
  have hend : stripClose e.body = e.body := by
    refine if_neg fun hs => ?_
    have hlast : e.body.getLast? = some 34 := by
      rw [Entry.body]
      simp
    obtain ⟨s, hs⟩ := hs
    rw [← hs] at hlast
    simp [ascii] at hlast
  have hbody := hplain []
  rw [List.append_nil] at hbody
  unfold cleaned
  rw [hbody, hplain, hopen, List.append_assoc, hopen, hclose, hend]
  exact ⟨reorder_body e, reorder_body e, reorder_body e, reorder_body e⟩

theorem map_cleaned_rawLines {e : Entry} {first : List Byte} (hfirst : cleaned first = e.line)
    (hclosed : cleaned (first ++ ascii "\x7d]") = e.line) (es : List Entry) :
    (rawLines first es).map cleaned = (e :: es).map Entry.line := by
  induction es generalizing e first with
  | nil => simp [rawLines, hclosed]
  | cons e' es ih =>
    rw [rawLines, List.map_cons, hfirst, ih (cleaned_body e').1 (cleaned_body e').2.1]
    rfl

theorem entryLines_tzJson (e : Entry) (es : List Entry) : entryLines (tzJson (e :: es)) = (e :: es).map Entry.line := by
  have hfirst : (10 : Byte) ∉ ascii "[\x7b" ++ e.body := by
    rw [List.mem_append, not_or]
    exact ⟨by decide, e.newline_notMem_body⟩
  obtain ⟨-, -, hopen, hboth⟩ := cleaned_body e
  rw [entryLines, replaceFrom_tzJson, textLines_append (splitOn_rawLines hfirst es)]
  exact map_cleaned_rawLines hopen hboth es

/-- The lookup finds the zone of the first entry that has the name and a colon in its line. -/
theorem lookupTzjson_tzJson (name : List Byte) {entries : List Entry} (hne : entries ≠ []) :
    lookupTzjson name (tzJson entries) =
      ((entries.find? fun e => name ++ [58] <:+: e.line).map fun e => e.zone.text).getD [] := by
  cases entries with
  | nil => exact absurd rfl hne
  | cons e es =>
    rw [lookupTzjson, entryLines_tzJson, List.find?_map]
    cases hfind : (e :: es).find? ((fun line => decide (name ++ [58] <:+: line)) ∘ Entry.line) with
    | none =>
      have hnone : (e :: es).find? (fun e => decide (name ++ [58] <:+: e.line)) = none := hfind
      rw [hnone]
      rfl
    | some e' =>
      have hsome : (e :: es).find? (fun e => decide (name ++ [58] <:+: e.line)) = some e' := hfind
      have hcolon : (58 : Byte) ∉ e'.name := e'.notMem_name (by decide)
      have hline : (10 : Byte) ∉ e'.zone.text := e'.zone.notMem_text (by decide) (by decide) (by decide)
      rw [hsome, Option.map_some, Option.map_some, Option.getD_some]
      dsimp only
      rw [if_pos (by simp [Entry.line]), Entry.line, dropWhile_cut hcolon, List.tail_cons]
      exact Shell.output_eq_self fun hlast => hline (List.mem_of_getLast? hlast)

/-! ### The text of a zone -/

section Fields
variable {head : List Byte} {fs : List (List Byte)}

theorem splitOn_fields (hhead : (44 : Byte) ∉ head) (hfs : ∀ f ∈ fs, (44 : Byte) ∉ f) :
    (head ++ fs.flatMap (44 :: ·)).splitOn 44 = head :: fs := by
  induction fs generalizing head with
  | nil => exact (congrArg _ (List.append_nil head)).trans (List.splitOn_eq_singleton hhead)
  | cons f fs ih =>
    rw [List.flatMap_cons, List.cons_append, Lines.splitOn_cut hhead, ih (hfs f List.mem_cons_self)
      fun g hg => hfs g (List.mem_cons_of_mem f hg)]

theorem intercalate_fields (hhead : (44 : Byte) ∉ head) (hfs : ∀ f ∈ fs, (44 : Byte) ∉ f) :
    [44].intercalate (head :: fs) = head ++ fs.flatMap (44 :: ·) := by
  rw [← splitOn_fields hhead hfs]
  exact List.intercalate_splitOn 44

end Fields

theorem comma_notMem_rule (r : RuleText) : (44 : Byte) ∉ r.text := r.notMem_text (by decide) (by decide)

theorem comma_notMem_texts (rs : List RuleText) : ∀ f ∈ rs.map RuleText.text, (44 : Byte) ∉ f := by
  intro f hf
  obtain ⟨r, -, rfl⟩ := List.mem_map.mp hf
  exact comma_notMem_rule r

namespace Zone
variable (z : Zone)

theorem notMem_head {b : Byte} (h : isHeadByte b = false) : b ∉ z.head := fun hmem =>
  Bool.false_ne_true (h.symm.trans (List.all_eq_true.mp z.plain b hmem))

theorem text_eq : z.text = z.head ++ (z.rules.map RuleText.text).flatMap (44 :: ·) := by
  rw [text, List.flatMap_map]

theorem splitOn_text : z.text.splitOn 44 = z.head :: z.rules.map RuleText.text := by
  rw [text_eq, splitOn_fields (z.notMem_head (by decide)) (comma_notMem_texts z.rules)]

theorem newline_notMem_text : (10 : Byte) ∉ z.text := z.notMem_text (by decide) (by decide) (by decide)

theorem not_isEchoOption : Shell.isEchoOption z.text = false := by
  obtain ⟨b, head, hhead⟩ := List.exists_cons_of_ne_nil z.named.1
  have hsign := z.named.2
  rw [hhead, List.head?_cons] at hsign
  rw [Shell.isEchoOption, text, hhead, List.cons_append, List.head?_cons, decide_eq_false hsign]
  rfl

theorem echo_text : Shell.echo z.text = z.text ++ [10] := if_neg (Bool.eq_false_iff.mp z.not_isEchoOption)

theorem echoed_text : Shell.echoed z.text = z.text := Shell.echoed_of_line z.not_isEchoOption z.newline_notMem_text

theorem record_echo : Awk.record (Shell.echo z.text) = z.text := by
  rw [echo_text]
  exact takeWhile_cut z.newline_notMem_text []

theorem textLines_echo : textLines (Shell.echo z.text) = [z.text] := by
  rw [echo_text]
  exact textLines_append ((Lines.splitOn_cut z.newline_notMem_text []).trans rfl)

end Zone

/-! ### The test for unsafe hours -/

theorem hasUnsafeHour_append {a : List Byte} (h : (47 : Byte) ∉ a) (s : List Byte) :
    hasUnsafeHour (a ++ s) = hasUnsafeHour s := by
  induction a with
  | nil => rfl
  | cons b a ih =>
    rw [List.mem_cons, not_or] at h
    rw [List.cons_append, hasUnsafeHour, decide_eq_false (Ne.symm h.1), Bool.false_and, Bool.false_or, ih h.2]

theorem digit_range {b : Byte} (h : isDigit b = true) : 48 ≤ b.toNat ∧ b.toNat ≤ 57 := by
  simpa [isDigit] using h

theorem endsHour_of_digit {b : Byte} (h : isDigit b = true) (s : List Byte) : endsHour (b :: s) = false := by
  rw [endsHour, Bool.or_eq_false_iff, decide_eq_false_iff_not, decide_eq_false_iff_not]
  constructor <;> rintro rfl <;> exact absurd h (by decide)

theorem not_isDigit_of_endsHour {b : Byte} {s : List Byte} (h : endsHour (b :: s) = true) : isDigit b = false :=
  Bool.eq_false_iff.mpr fun hdigit => Bool.false_ne_true ((endsHour_of_digit hdigit s).symm.trans h)

theorem unsafeHour_two {a b : Byte} {s : List Byte} (hs : endsHour s = true) (hb : isDigit b = true) :
    unsafeHour (a :: b :: s) = true ↔ a.toNat = 50 ∧ 53 ≤ b.toNat ∨ 51 ≤ a.toNat ∧ a.toNat ≤ 57 := by
  have hrange := digit_range hb
  have h50 : (50 : Byte).toNat = 50 := rfl
  cases s with
  | nil =>
    simp only [unsafeHour, endsHour, Bool.and_true, Bool.or_false, Bool.or_eq_true, Bool.and_eq_true, decide_eq_true_eq,
      hb, BitVec.toNat_eq, h50]
    omega
  | cons c s =>
    simp only [unsafeHour, hs, not_isDigit_of_endsHour hs, Bool.and_true, Bool.and_false, Bool.false_and, Bool.or_false,
      Bool.or_eq_true, Bool.and_eq_true, decide_eq_true_eq, hb, BitVec.toNat_eq, h50]
    omega

theorem unsafeHour_three {a b c : Byte} {s : List Byte} (hs : endsHour s = true) (hc : isDigit c = true) :
    unsafeHour (a :: b :: c :: s) = true ↔ a.toNat = 49 ∧ 48 ≤ b.toNat ∧ b.toNat ≤ 54 := by
  have h49 : (49 : Byte).toNat = 49 := rfl
  rw [unsafeHour, endsHour_of_digit hc, hs]
  simp only [Bool.and_true, Bool.and_false, Bool.false_or, Bool.and_eq_true, decide_eq_true_eq, hc, BitVec.toNat_eq, h49,
    and_assoc]

theorem unsafeHour_four {a b c d : Byte} (hc : isDigit c = true) (hd : isDigit d = true) (s : List Byte) :
    unsafeHour (a :: b :: c :: d :: s) = false := by
  rw [unsafeHour, endsHour_of_digit hc, endsHour_of_digit hd, Bool.and_false, Bool.and_false, Bool.or_false]

theorem unsafeHour_one {a : Byte} {s : List Byte} (hs : endsHour s = true) : unsafeHour (a :: s) = false := by
  cases s with
  | nil => rfl
  | cons c s =>
    obtain h | h : c = 44 ∨ c = 58 := by simpa [endsHour] using hs
    · subst h
      cases s <;> simp [unsafeHour, isDigit]
    · subst h
      cases s <;> simp [unsafeHour, isDigit]

/-- The pattern knows the hours beyond 24 that have no zero in front. -/
theorem unsafeHour_numeral (n : Numeral) (hvalue : n.value ≤ 167) {s : List Byte} (hs : endsHour s = true) :
    unsafeHour (n.text ++ s) = true ↔ 24 < n.value ∧ n.text.head? ≠ some 48 := by
  obtain ⟨text, hne, hdigits⟩ := n
  rw [List.all_eq_true] at hdigits
  have h48 : (48 : Byte).toNat = 48 := rfl
  unfold Numeral.value at hvalue ⊢
  dsimp only at hvalue ⊢
  match text with
  | [] => exact absurd rfl hne
  | [a] =>
    have ha := digit_range (hdigits a (by simp))
    have hsmall : Shell.decimal [a] ≤ 9 := by
      simp only [Shell.decimal, List.foldl_cons, List.foldl_nil]
      omega
    exact iff_of_false (Bool.eq_false_iff.mp (unsafeHour_one hs)) fun h => by omega
  | [a, b] =>
    have ha := digit_range (hdigits a (by simp))
    have hb := digit_range (hdigits b (by simp))
    have htwo := @unsafeHour_two a b s hs (hdigits b (by simp))
    rw [List.cons_append, List.cons_append, List.nil_append, htwo, List.head?_cons, ne_eq, Option.some_inj,
      BitVec.toNat_eq, h48]
    simp only [Shell.decimal, List.foldl_cons, List.foldl_nil]
    omega
  | [a, b, c] =>
    have ha := digit_range (hdigits a (by simp))
    have hb := digit_range (hdigits b (by simp))
    have hc := digit_range (hdigits c (by simp))
    have hthree := @unsafeHour_three a b c s hs (hdigits c (by simp))
    rw [List.cons_append, List.cons_append, List.cons_append, List.nil_append, hthree, List.head?_cons, ne_eq,
      Option.some_inj, BitVec.toNat_eq, h48]
    simp only [Shell.decimal, List.foldl_cons, List.foldl_nil] at hvalue ⊢
    omega
  | a :: b :: c :: d :: text =>
    have ha := digit_range (hdigits a (by simp))
    refine iff_of_false (Bool.eq_false_iff.mp (unsafeHour_four (hdigits c (by simp)) (hdigits d (by simp)) _)) fun h => ?_
    have htake := Shell.decimal_take_le (a :: b :: c :: d :: text) 4
    have hthousand : 1000 * (a.toNat - 48) ≤ Shell.decimal [a, b, c, d] := by
      simp only [Shell.decimal, List.foldl_cons, List.foldl_nil]
      omega
    have hzero := h.2
    rw [List.head?_cons, ne_eq, Option.some_inj, BitVec.toNat_eq, h48] at hzero
    simp only [List.take_succ_cons, List.take_zero] at htake
    omega

theorem endsHour_behind (t : TimeText) {rest : List Byte} (h : endsHour rest = true) :
    endsHour (t.behindText ++ rest) = true := by
  unfold TimeText.behindText
  split
  · exact h
  · rfl
  · rfl

/-- A rule is seen for its own hour, or the search goes on behind it. -/
theorem hasUnsafeHour_rule (r : RuleText) (hvalid : r.rule.time.hour ≤ 167) {rest : List Byte} (hrest : endsHour rest = true) :
    hasUnsafeHour (44 :: (r.text ++ rest)) = true ↔
      (24 < r.rule.time.hour ∧ PlainHour r) ∨ hasUnsafeHour rest = true := by
  have hslash : hasUnsafeHour (44 :: (r.text ++ rest)) = hasUnsafeHour (r.text ++ rest) :=
    @hasUnsafeHour_append [44] (by decide) _
  rw [hslash]
  obtain ⟨date, _ | t⟩ := r
  · have hdate : (47 : Byte) ∉ RuleText.text ⟨date, none⟩ := date.notMem_text rfl (by decide)
    rw [hasUnsafeHour_append hdate]
    refine ⟨.inr, fun h => h.resolve_left ?_⟩
    rintro ⟨-, t, ht, -⟩
    cases ht
  · have hdate : (47 : Byte) ∉ date.text := date.notMem_text rfl (by decide)
    have htime : (47 : Byte) ∉ t.text := t.notMem_text rfl (by decide)
    have htext : RuleText.text ⟨date, some t⟩ ++ rest = date.text ++ 47 :: (t.hour.text ++ (t.behindText ++ rest)) := by
      simp only [RuleText.text, TimeText.text, List.append_assoc, List.cons_append]
    have hbehind : t.hour.text ++ (t.behindText ++ rest) = t.text ++ rest := by
      rw [TimeText.text, List.append_assoc]
    have hhour : (RuleText.rule ⟨date, some t⟩).time.hour = t.hour.value := t.hour_time
    have hplain : PlainHour ⟨date, some t⟩ ↔ t.hour.text.head? ≠ some 48 := by
      refine ⟨?_, fun h => ⟨t, rfl, h⟩⟩
      rintro ⟨t', ht, hne⟩
      exact Option.some.inj ht ▸ hne
    rw [hhour] at hvalid ⊢
    rw [htext, hasUnsafeHour_append hdate, hasUnsafeHour, decide_eq_true rfl, Bool.true_and, Bool.or_eq_true,
      unsafeHour_numeral t.hour hvalid (endsHour_behind t hrest), hbehind, hasUnsafeHour_append htime, hplain]

theorem endsHour_flatMap (rs : List RuleText) : endsHour (rs.flatMap fun r => 44 :: r.text) = true := by
  cases rs with
  | nil => rfl
  | cons r rs => rfl

/-- What the test sees. -/
theorem needsFix_iff (z : Zone) : needsFix z.text = true ↔ ∃ r ∈ z.rules, 24 < r.rule.time.hour ∧ PlainHour r := by
  have hrules : ∀ rs : List RuleText, (∀ r ∈ rs, r.rule.Valid) →
      (hasUnsafeHour (rs.flatMap fun r => 44 :: r.text) = true ↔ ∃ r ∈ rs, 24 < r.rule.time.hour ∧ PlainHour r) := by
    intro rs hvalid
    induction rs with
    | nil => exact iff_of_false Bool.false_ne_true fun ⟨_, h, _⟩ => absurd h List.not_mem_nil
    | cons r rs ih =>
      have hrest := ih fun r' hr' => hvalid r' (List.mem_cons_of_mem r hr')
      rw [List.flatMap_cons, List.cons_append,
        hasUnsafeHour_rule r (hvalid r List.mem_cons_self).hour (endsHour_flatMap rs), hrest, List.exists_mem_cons_iff]
  rw [needsFix, z.textLines_echo, List.any_cons, List.any_nil, Bool.or_false, Zone.text,
    hasUnsafeHour_append (z.notMem_head (by decide)), hrules z.rules z.valid]

/-! ### The repair -/

/-- A rule behind the repair. -/
def fixed (r : RuleText) : RuleText :=
  match r.date, r.time with
  | .month m w d, some t =>
    if 24 < t.hour.value then
      let (nd, nh) := if 6 < d.value + t.hour.value / 24 then (d.value, 24)
        else (d.value + t.hour.value / 24, t.hour.value % 24)
      ⟨.month (.printed m.value) (.printed w.value) (.printed nd), some ⟨.printed nh, none⟩⟩
    else r
  | _, _ => r

section Fix
variable (n : Numeral) {s : List Byte}

theorem matchDigits_numeral (hs : ∀ b, s.head? = some b → isDigit b = false) : matchDigits (n.text ++ s) = some s := by
  obtain ⟨htake, hdrop⟩ := run_append (fun b hb => n.isDigit_of_mem hb) hs
  rw [matchDigits, htake, hdrop, if_neg n.nonempty]

theorem number_numeral (hs : ∀ b, s.head? = some b → isDigit b = false) : number (n.text ++ s) = n.value := by
  rw [number, (run_append (fun b hb => n.isDigit_of_mem hb) hs).1]
  rfl

theorem number_self : number n.text = n.value := by
  have h := number_numeral n (s := []) fun b hb => by cases hb
  rwa [List.append_nil] at h

theorem head?_behindText (t : TimeText) : ∀ b, t.behindText.head? = some b → isDigit b = false := by
  intro b hb
  unfold TimeText.behindText at hb
  split at hb <;> cases hb <;> rfl

end Fix

theorem fix_of_not_matches {f : List Byte} (h : matchesRule f = false) : fix f = f := if_neg (Bool.eq_false_iff.mp h)

/-- The repair knows the rules with a month and a time. -/
theorem fix_text (r : RuleText) : fix r.text = (fixed r).text := by
  obtain ⟨date, time⟩ := r
  cases date with
  | julian n =>
    have hno : matchesRule (RuleText.text ⟨.julian n, time⟩) = false := by
      cases time <;> rfl
    cases time <;> exact fix_of_not_matches hno
  | month m w d =>
    have hstop : ∀ (c : Byte) (s : List Byte), isDigit c = false → ∀ b, (c :: s).head? = some b → isDigit b = false := by
      intro c s hc b hb
      cases hb
      exact hc
    cases time with
    | none =>
      have hno : matchesRule (RuleText.text ⟨.month m w d, none⟩) = false := by
        have hend := matchDigits_numeral d (s := []) fun b hb => by cases hb
        rw [List.append_nil] at hend
        simp only [matchesRule, RuleText.text, DateText.text, matchByte, if_true, Option.bind_some,
          matchDigits_numeral m (hstop 46 _ rfl), matchDigits_numeral w (hstop 46 _ rfl), hend, Option.bind_none,
          Option.isSome_none]
      exact fix_of_not_matches hno
    | some t =>
      have hyes : matchesRule (RuleText.text ⟨.month m w d, some t⟩) = true := by
        simp only [matchesRule, RuleText.text, DateText.text, TimeText.text, List.cons_append, List.append_assoc, matchByte,
          if_true, Option.bind_some, matchDigits_numeral m (hstop 46 _ rfl), matchDigits_numeral w (hstop 46 _ rfl),
          matchDigits_numeral d (hstop 47 _ rfl), matchDigits_numeral t.hour (head?_behindText t), Option.isSome_some]
      have hslash : (RuleText.text ⟨.month m w d, some t⟩).splitOn 47 = [(DateText.month m w d).text, t.text] :=
        (Lines.splitOn_cut ((DateText.month m w d).notMem_text rfl (by decide)) t.text).trans
          (congrArg _ (List.splitOn_eq_singleton (t.notMem_text rfl (by decide))))
      have hdots : (DateText.text (.month m w d)).splitOn 46 = [77 :: m.text, w.text, d.text] := by
        have hm : (46 : Byte) ∉ 77 :: m.text := by simpa using m.notMem (b := 46) rfl
        rw [DateText.text, ← List.cons_append, Lines.splitOn_cut hm, Lines.splitOn_cut (w.notMem rfl),
          List.splitOn_eq_singleton (d.notMem rfl)]
      have hhour : number t.text = t.hour.value := number_numeral t.hour (head?_behindText t)
      rw [fix, if_pos hyes]
      simp only [Awk.split, hslash, List.getD_cons_zero, List.getD_cons_succ, hdots, List.drop_succ_cons, List.drop_zero, hhour,
        number_self, fixed]
      by_cases h : 24 < t.hour.value
      · rw [if_pos h, if_pos h]
        split <;> simp [RuleText.text, DateText.text, TimeText.text, TimeText.behindText, Numeral.printed]
      · rw [if_neg h, if_neg h]

theorem eq_cons_of_matchByte {c : Byte} {s rest : List Byte} (h : matchByte c s = some rest) : s = c :: rest := by
  cases s with
  | nil => cases h
  | cons b s =>
    obtain ⟨rfl, rfl⟩ : b = c ∧ s = rest := by simpa [matchByte] using h
    rfl

theorem eq_dropWhile_of_matchDigits {s rest : List Byte} (h : matchDigits s = some rest) : rest = s.dropWhile isDigit := by
  unfold matchDigits at h
  split at h
  · cases h
  · exact (Option.some.inj h).symm

/-- A text without a dot is no rule for a month. -/
theorem fix_of_notMem {f : List Byte} (h : (46 : Byte) ∉ f) : fix f = f := by
  refine fix_of_not_matches (Bool.eq_false_iff.mpr fun hmatches => h ?_)
  obtain ⟨rest, hmatches⟩ := Option.isSome_iff_exists.mp hmatches
  obtain ⟨s, hletter, hmatches⟩ := Option.bind_eq_some_iff.mp hmatches
  obtain ⟨s', hdigits, hmatches⟩ := Option.bind_eq_some_iff.mp hmatches
  obtain ⟨s'', hdot, -⟩ := Option.bind_eq_some_iff.mp hmatches
  have hmem : (46 : Byte) ∈ s' := eq_cons_of_matchByte hdot ▸ List.mem_cons_self
  rw [eq_dropWhile_of_matchDigits hdigits] at hmem
  rw [eq_cons_of_matchByte hletter]
  exact List.mem_cons_of_mem 77 ((List.dropWhile_sublist _).subset hmem)

/-- The zone with all its rules repaired. -/
def fixedText (z : Zone) : List Byte := z.head ++ (z.rules.map fun r => (fixed r).text).flatMap (44 :: ·)

theorem comma_notMem_fixed (z : Zone) : ∀ f ∈ z.rules.map (fun r => (fixed r).text), (44 : Byte) ∉ f := by
  intro f hf
  obtain ⟨r, -, rfl⟩ := List.mem_map.mp hf
  exact comma_notMem_rule (fixed r)

theorem splitOn_fixedText (z : Zone) :
    (fixedText z).splitOn 44 = z.head :: z.rules.map fun r => (fixed r).text :=
  splitOn_fields (z.notMem_head (by decide)) (comma_notMem_fixed z)

theorem sanitizeHours_text (z : Zone) : sanitizeHours z.text = fixedText z := by
  have hfields : (z.text.splitOn 44).map fix = z.head :: z.rules.map fun r => (fixed r).text := by
    rw [z.splitOn_text, List.map_cons, List.map_map, fix_of_notMem (z.notMem_head (by decide))]
    congr 1
    apply List.map_congr_left
    intro r _
    exact fix_text r
  have hnewline : (10 : Byte) ∉ fixedText z := by
    rw [fixedText, List.mem_append, List.mem_flatMap, not_or]
    refine ⟨z.notMem_head (by decide), fun ⟨f, hf, hmem⟩ => ?_⟩
    obtain ⟨r, -, rfl⟩ := List.mem_map.mp hf
    obtain heq | hmem := List.mem_cons.mp hmem
    · exact absurd heq (by decide)
    · exact (fixed r).notMem_text (by decide) (by decide) hmem
  have hdrop : Shell.output (fixedText z ++ [10]) = Shell.output (fixedText z) :=
    List.rdropWhile_concat_pos _ _ _ (decide_eq_true rfl)
  rw [sanitizeHours, z.record_echo, hfields, intercalate_fields (z.notMem_head (by decide)) (comma_notMem_fixed z)]
  exact hdrop.trans (Shell.output_eq_self fun hlast => hnewline (List.mem_of_getLast? hlast))

/-! ### What a repaired rule says -/

theorem Repair.refl {r : Rule} (hvalid : r.Valid) (h : r.time.hour ≤ 24) : Repair r r := by
  refine ⟨h, ?_, ⟨rfl, rfl⟩, fun _ _ => .inl rfl⟩
  have hdate := hvalid.date
  cases hd : r.date with
  | julian n => exact trivial
  | month m w d =>
    rw [hd] at hdate
    exact hdate.2.2.2.2

theorem fixed_of_le {r : RuleText} (h : r.rule.time.hour ≤ 24) : fixed r = r := by
  obtain ⟨_ | ⟨m, w, d⟩, _ | t⟩ := r
  · rfl
  · rfl
  · rfl
  · have hle : t.hour.value ≤ 24 := t.hour_time ▸ h
    exact if_neg (Nat.not_lt.mpr hle)

/-- A rule for a month is repaired, with whole hours. -/
theorem fixed_rule {m w d : Numeral} {t : TimeText} (h : 24 < t.hour.value) :
    (fixed ⟨.month m w d, some t⟩).rule =
      if 6 < d.value + t.hour.value / 24 then ⟨.month m.value w.value d.value, ⟨24, 0, 0⟩⟩
      else ⟨.month m.value w.value (d.value + t.hour.value / 24), ⟨t.hour.value % 24, 0, 0⟩⟩ := by
  unfold fixed
  dsimp only
  rw [if_pos h]
  split <;> simp [RuleText.rule, DateText.date, TimeText.time]

theorem fixed_julian {n : Numeral} {time : Option TimeText} : fixed ⟨.julian n, time⟩ = ⟨.julian n, time⟩ := by
  cases time <;> rfl

/-- The repair is one, where the rule has a month and whole hours. -/
theorem repair_fixed {r : RuleText} (hvalid : r.rule.Valid) (hmonth : 24 < r.rule.time.hour → isMonth r.rule.date)
    (hwhole : 24 < r.rule.time.hour → r.rule.time.minute = 0 ∧ r.rule.time.second = 0) :
    Repair r.rule (fixed r).rule := by
  by_cases hle : r.rule.time.hour ≤ 24
  · rw [fixed_of_le hle]
    exact .refl hvalid hle
  · have hgt := Nat.not_le.mp hle
    obtain ⟨_ | ⟨m, w, d⟩, _ | t⟩ := r
    · exact absurd (show 24 < 2 from hgt) (by decide)
    · exact (hmonth hgt).elim
    · exact absurd (show 24 < 2 from hgt) (by decide)
    · obtain ⟨hdate, -, -, -⟩ := hvalid
      obtain ⟨hminute, hsecond⟩ := hwhole hgt
      have hhour : t.time.hour = t.hour.value := t.hour_time
      have hvalue : 24 < t.hour.value := hhour ▸ hgt
      have hrule : RuleText.rule ⟨.month m w d, some t⟩ = ⟨.month m.value w.value d.value, ⟨t.hour.value, 0, 0⟩⟩ := by
        have htime : t.time = ⟨t.hour.value, 0, 0⟩ := by
          rw [← hhour]
          exact congrArg₂ (Time.mk t.time.hour) hminute hsecond
        rw [RuleText.rule]
        dsimp only
        rw [htime]
        rfl
      rw [fixed_rule hvalue, hrule]
      by_cases hover : 6 < d.value + t.hour.value / 24
      · rw [if_pos hover]
        exact ⟨Nat.le_refl _, hdate.2.2.2.2, ⟨rfl, rfl⟩, fun hstays => absurd hstays (Nat.not_le.mpr hover)⟩
      · rw [if_neg hover]
        have hstays := Nat.not_lt.mp hover
        exact ⟨(Nat.mod_lt _ (by decide)).le, hstays, ⟨rfl, rfl⟩, fun _ => seconds_carry 0 0 ⟨hdate.1, hdate.2.1⟩ hstays⟩

/-- Other rules are not repaired by it. -/
theorem month_of_repair {r : RuleText} (h : Repair r.rule (fixed r).rule) (hgt : 24 < r.rule.time.hour) :
    isMonth r.rule.date ∧ r.rule.time.minute = 0 ∧ r.rule.time.second = 0 := by
  obtain ⟨_ | ⟨m, w, d⟩, _ | t⟩ := r
  · exact absurd (show 24 < 2 from hgt) (by decide)
  · rw [fixed_julian] at h
    exact absurd h.hour (Nat.not_le.mpr hgt)
  · exact absurd (show 24 < 2 from hgt) (by decide)
  · have hvalue : 24 < t.hour.value := t.hour_time ▸ hgt
    have hkept := h.kept
    rw [fixed_rule hvalue] at hkept
    split at hkept <;> exact ⟨trivial, hkept.1.symm, hkept.2.symm⟩

/-! ### The claim -/

theorem generic_text (z : Zone) : generic z.text = if needsFix z.text then fixedText z else z.text := by
  rw [generic, sanitizeHours_text, z.echoed_text]

theorem resolved_eq (t : Tools) (rounds : Nat) {entries : List Entry} {e : Entry} (hname : e.name ≠ ascii "Asia/Jerusalem")
    (hfound : lookupTzjson e.name (tzJson entries) = e.zone.text) :
    resolved t rounds entries e.name = some (if needsFix e.zone.text then fixedText e.zone else e.zone.text) := by
  rw [resolved, hfound, resolveTz, if_neg hname, generic_text]

/-- The repaired zone, rule by rule. -/
theorem repaired_fixedText_iff (z : Zone) : Repaired z (fixedText z) ↔ ∀ r ∈ z.rules, Repair r.rule (fixed r).rule := by
  have hrules : ruleTexts (fixedText z) = z.rules.map fun r => (fixed r).text := by
    rw [ruleTexts, splitOn_fixedText, List.tail_cons]
  constructor
  · intro h r hr
    have hforall := h.rules
    rw [hrules, List.forall₂_map_right_iff, List.forall₂_same] at hforall
    obtain ⟨r', hparse, hrepair⟩ := hforall r hr
    rw [parseRule_text] at hparse
    cases hparse
    exact hrepair
  · intro h
    refine ⟨by rw [splitOn_fixedText, List.head?_cons], ?_⟩
    rw [hrules, List.forall₂_map_right_iff, List.forall₂_same]
    exact fun r hr => ⟨_, parseRule_text (fixed r), h r hr⟩

/-- A zone with an hour beyond 24 is not its own repair. -/
theorem not_repaired_self {z : Zone} {r : RuleText} (hr : r ∈ z.rules) (hgt : 24 < r.rule.time.hour) :
    ¬Repaired z z.text := by
  intro h
  have hrules : ruleTexts z.text = z.rules.map RuleText.text := by
    rw [ruleTexts, z.splitOn_text, List.tail_cons]
  have hforall := h.rules
  rw [hrules, List.forall₂_map_right_iff, List.forall₂_same] at hforall
  obtain ⟨r', hparse, hrepair⟩ := hforall r hr
  rw [parseRule_text] at hparse
  cases hparse
  exact absurd hrepair.hour (Nat.not_le.mpr hgt)

/-- The first line with the name and a colon in it has the zone of the entry. -/
def Found (entries : List Entry) (e : Entry) : Prop :=
  ∃ e', entries.find? (fun e' => e.name ++ [58] <:+: e'.line) = some e' ∧ e'.zone.text = e.zone.text

theorem found_iff {entries : List Entry} {e : Entry} (he : e ∈ entries) :
    lookupTzjson e.name (tzJson entries) = e.zone.text ↔ Found entries e := by
  rw [lookupTzjson_tzJson e.name (List.ne_nil_of_mem he), Found]
  cases hfind : entries.find? fun e' => decide (e.name ++ [58] <:+: e'.line) with
  | none =>
    have hself : e.name ++ [58] <:+: e.line :=
      (List.IsPrefix.isInfix ⟨e.zone.text, by rw [Entry.line, List.append_assoc]; rfl⟩)
    exact absurd (decide_eq_true hself) (List.find?_eq_none.mp hfind e he)
  | some e' =>
    rw [Option.map_some, Option.getD_some]
    exact ⟨fun h => ⟨e', rfl, h⟩, fun ⟨_, h, htext⟩ => Option.some.inj h ▸ htext⟩

/-- A zone that has been repaired can be. -/
theorem Faithful.repairable {t : Tools} {rounds : Nat} {entries : List Entry} {e : Entry}
    (h : Faithful t rounds entries e) (hname : e.name ≠ ascii "Asia/Jerusalem")
    (hgt : ∃ r ∈ e.zone.rules, 24 < r.rule.time.hour) : Repairable e.zone := by
  obtain ⟨out, hout, hok⟩ := h.repaired hgt
  rw [resolved_eq t rounds hname h.found, Option.some_inj] at hout
  obtain ⟨r, hr, hhour⟩ := hgt
  by_cases hneeds : needsFix e.zone.text = true
  · rw [if_pos hneeds] at hout
    rw [← hout, repaired_fixedText_iff] at hok
    exact ⟨fun r hr hgt => (month_of_repair (hok r hr) hgt).1, fun r hr hgt => (month_of_repair (hok r hr) hgt).2,
      (needsFix_iff e.zone).mp hneeds⟩
  · rw [if_neg hneeds] at hout
    rw [← hout] at hok
    exact absurd hok (not_repaired_self hr hhour)

/-- **Where the resolved zone is safe and faithful**: just where the lookup finds the right zone, and, when an hour is
beyond 24, every such rule has a month and whole hours, and one of them is written without a zero in front. -/
theorem faithful_iff (t : Tools) (rounds : Nat) (entries : List Entry) (e : Entry) (he : e ∈ entries)
    (hname : e.name ≠ ascii "Asia/Jerusalem") :
    Faithful t rounds entries e ↔
      Found entries e ∧ ((∃ r ∈ e.zone.rules, 24 < r.rule.time.hour) → Repairable e.zone) := by
  constructor
  · intro h
    exact ⟨(found_iff he).mp h.found, h.repairable hname⟩
  · rintro ⟨hfound, hrepairable⟩
    have hlookup := (found_iff he).mpr hfound
    refine ⟨hlookup, fun hle => ?_, fun hgt => ⟨_, resolved_eq t rounds hname hlookup, ?_⟩⟩
    · have hneeds : ¬needsFix e.zone.text = true := fun hneeds => by
        obtain ⟨r, hr, hgt, -⟩ := (needsFix_iff e.zone).mp hneeds
        exact absurd (hle r hr) (Nat.not_le.mpr hgt)
      rw [resolved_eq t rounds hname hlookup, if_neg hneeds]
    · obtain ⟨hmonth, hwhole, hseen⟩ := hrepairable hgt
      rw [if_pos ((needsFix_iff e.zone).mpr hseen), repaired_fixedText_iff]
      exact fun r hr => repair_fixed (e.zone.valid r hr) (hmonth r hr) (hwhole r hr)

/-! ### Two files -/

/-- A zone with one rule for spring and one for autumn, at whole hours. -/
def twoRules (spring autumn : DateText) (hour : Nat) : List RuleText :=
  [⟨spring, some ⟨.printed hour, none⟩⟩, ⟨autumn, some ⟨.printed hour, none⟩⟩]

theorem mem_twoRules {spring autumn : DateText} {hour : Nat} {r : RuleText} (h : r ∈ twoRules spring autumn hour) :
    r.rule = ⟨spring.date, ⟨hour, 0, 0⟩⟩ ∨ r.rule = ⟨autumn.date, ⟨hour, 0, 0⟩⟩ := by
  obtain rfl | h := List.mem_cons.mp h
  · left
    simp [RuleText.rule, TimeText.time]
  · obtain rfl := List.mem_singleton.mp h
    right
    simp [RuleText.rule, TimeText.time]

def entry (name head : List Byte) (spring autumn : DateText) (hour : Nat) (hplain : head.all isHeadByte = true)
    (hnamed : head ≠ [] ∧ head.head? ≠ some 45) (hname : name.all isNameByte = true)
    (hname' : name ≠ [] ∧ name.head? ≠ some 45) (hspring : spring.date.Valid) (hautumn : autumn.date.Valid)
    (hhour : hour ≤ 167) : Entry where
  name := name
  zone :=
    { head := head
      rules := twoRules spring autumn hour
      plain := hplain
      named := hnamed
      valid := by
        intro r hr
        obtain h | h := mem_twoRules hr
        · rw [h]
          exact ⟨hspring, hhour, Nat.zero_le _, Nat.zero_le _⟩
        · rw [h]
          exact ⟨hautumn, hhour, Nat.zero_le _, Nat.zero_le _⟩ }
  plain := hname
  named := hname'

def thursday (m : Nat) : DateText := .month (.printed m) (.printed 4) (.printed 4)

/-- The zone of Gaza. -/
def gaza : Entry :=
  entry (ascii "Asia/Gaza") (ascii "EET-2EEST") (thursday 3) (thursday 10) 50 (by decide) (by decide) (by decide) (by decide)
    (by decide) (by decide) (by decide)

/-- The same, with a day of the year in spring. -/
def gazaJulian : Entry :=
  entry (ascii "Asia/Gaza") (ascii "EET-2EEST") (.julian (.printed 84)) (thursday 10) 50 (by decide) (by decide) (by decide)
    (by decide) (by decide) (by decide) (by decide)

theorem faithful_gaza : Faithful ⟨gregorian 0, fun _ => none⟩ 0 [gaza] gaza := by
  refine (faithful_iff _ 0 [gaza] gaza List.mem_cons_self (by decide)).mpr
    ⟨⟨gaza, List.find?_cons_of_pos (by decide), rfl⟩, fun _ => ⟨fun r hr _ => ?_, fun r hr _ => ?_, ?_⟩⟩
  · obtain h | h := mem_twoRules hr
    · rw [h]
      exact trivial
    · rw [h]
      exact trivial
  · obtain h | h := mem_twoRules hr
    · rw [h]
      exact ⟨rfl, rfl⟩
    · rw [h]
      exact ⟨rfl, rfl⟩
  · exact ⟨_, List.mem_cons_self, by decide, _, rfl, by decide⟩

/-- A day of the year keeps its hour: `EET-2EEST,J84/50,M10.4.4/50`. -/
theorem julian_not_repaired : ¬Faithful ⟨gregorian 0, fun _ => none⟩ 0 [gazaJulian] gazaJulian := by
  intro h
  have hmem : (⟨.julian (.printed 84), some ⟨.printed 50, none⟩⟩ : RuleText) ∈ gazaJulian.zone.rules := List.mem_cons_self
  exact (h.repairable (by decide) ⟨_, hmem, by decide⟩).month _ hmem (by decide)

end Thingino.System.TimeZone
