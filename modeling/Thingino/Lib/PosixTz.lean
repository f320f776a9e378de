import Thingino.Lib.Calendar
import Thingino.Lib.Lines
import Thingino.Lib.Shell

/-! The transition rules of a POSIX time zone.

A rule is a day and a time, `M3.5.0/2` or `J84/2`, in the time that is in force before it. A day `Jn`
counts without the 29th of February; a day `Mm.w.d` is the weekday `d` of week `w` of a month, and week
5 is the last one. The time may be given in hours beyond a day. Its instant in a year is counted in
seconds of local time. -/
namespace Thingino.Lib.PosixTz
open Calendar

structure Time where
  hour : Nat
  minute : Nat
  second : Nat
  deriving DecidableEq

inductive Date
  | julian (n : Nat)
  | month (m w d : Nat)
  deriving DecidableEq

structure Rule where
  date : Date
  time : Time
  deriving DecidableEq

def Date.Valid : Date → Prop
  | .julian n => 1 ≤ n ∧ n ≤ 365
  | .month m w d => 1 ≤ m ∧ m ≤ 12 ∧ 1 ≤ w ∧ w ≤ 5 ∧ d ≤ 6

instance (d : Date) : Decidable d.Valid :=
  match d with
  | .julian n => inferInstanceAs (Decidable (1 ≤ n ∧ n ≤ 365))
  | .month m w d => inferInstanceAs (Decidable (1 ≤ m ∧ m ≤ 12 ∧ 1 ≤ w ∧ w ≤ 5 ∧ d ≤ 6))

/-- Hours up to a week, as in the extended form. -/
structure Rule.Valid (r : Rule) : Prop where
  date : r.date.Valid
  hour : r.time.hour ≤ 167
  minute : r.time.minute ≤ 59
  second : r.time.second ≤ 59

/-- The days of a month before a weekday of a week, where a fifth week that is not there is the fourth. -/
def daysBefore (first length w d : Nat) : Nat :=
  let days := (d + 7 - weekday first) % 7 + 7 * (w - 1)
  if days < length then days else days - 7

def Date.dayNumber (y : Nat) : Date → Nat
  | .julian n => daysBeforeYear y + (n - 1) + if isLeap y && 60 ≤ n then 1 else 0
  | .month m w d =>
    let first := Calendar.dayNumber y m 1
    first + daysBefore first (monthLength y m) w d

def Rule.seconds (y : Nat) (r : Rule) : Nat :=
  r.date.dayNumber y * 86400 + r.time.hour * 3600 + r.time.minute * 60 + r.time.second

/-! ### Texts -/

def number (s : List Byte) : Option Nat := if s ≠ [] ∧ s.all isDigit then some (Shell.decimal s) else none

/-- `H`, `H:MM` or `H:MM:SS`. -/
def parseTime (s : List Byte) : Option Time :=
  match s.splitOn 58 with
  | [h] => (number h).map (⟨·, 0, 0⟩)
  | [h, m] => (number h).bind fun h => (number m).map (⟨h, ·, 0⟩)
  | [h, m, s] => (number h).bind fun h => (number m).bind fun m => (number s).map (⟨h, m, ·⟩)
  | _ => none

/-- `Jn` or `Mm.w.d`. -/
def parseDate : List Byte → Option Date
  | [] => none
  | b :: s =>
    if b = 74 then (number s).map .julian
    else if b = 77 then
      match s.splitOn 46 with
      | [m, w, d] => (number m).bind fun m => (number w).bind fun w => (number d).map (.month m w ·)
      | _ => none
    else none

/-- A rule without a time is one for two o'clock. -/
def parseRule (s : List Byte) : Option Rule :=
  match s.splitOn 47 with
  | [date] => (parseDate date).map (⟨·, ⟨2, 0, 0⟩⟩)
  | [date, time] => (parseDate date).bind fun date => (parseTime time).map (⟨date, ·⟩)
  | _ => none

/-- The rules of a zone: what stands behind the commas. -/
def ruleTexts (zone : List Byte) : List (List Byte) := (zone.splitOn 44).tail

/-! ### Rules as they are written -/

/-- A number as it is written, with or without zeros in front. -/
structure Numeral where
  text : List Byte
  nonempty : text ≠ []
  digit : text.all isDigit = true

def Numeral.value (n : Numeral) : Nat := Shell.decimal n.text

/-- A number as it is printed. -/
def Numeral.printed (n : Nat) : Numeral := ⟨Shell.digits n, Shell.digits_ne_nil n, Shell.all_isDigit_digits n⟩

inductive DateText
  | julian (n : Numeral)
  | month (m w d : Numeral)

/-- An hour with nothing behind it, with minutes, or with minutes and seconds. -/
structure TimeText where
  hour : Numeral
  behind : Option (Numeral × Option Numeral)

structure RuleText where
  date : DateText
  time : Option TimeText

def DateText.text : DateText → List Byte
  | .julian n => 74 :: n.text
  | .month m w d => 77 :: (m.text ++ 46 :: (w.text ++ 46 :: d.text))

def DateText.date : DateText → Date
  | .julian n => .julian n.value
  | .month m w d => .month m.value w.value d.value

/-- What stands behind the hour. -/
def TimeText.behindText (t : TimeText) : List Byte :=
  match t.behind with
  | none => []
  | some (m, none) => 58 :: m.text
  | some (m, some s) => 58 :: (m.text ++ 58 :: s.text)

def TimeText.text (t : TimeText) : List Byte := t.hour.text ++ t.behindText

def TimeText.time (t : TimeText) : Time :=
  match t.behind with
  | none => ⟨t.hour.value, 0, 0⟩
  | some (m, none) => ⟨t.hour.value, m.value, 0⟩
  | some (m, some s) => ⟨t.hour.value, m.value, s.value⟩

def RuleText.text (r : RuleText) : List Byte :=
  match r.time with
  | none => r.date.text
  | some t => r.date.text ++ 47 :: t.text

def RuleText.rule (r : RuleText) : Rule :=
  match r.time with
  | none => ⟨r.date.date, ⟨2, 0, 0⟩⟩
  | some t => ⟨r.date.date, t.time⟩

theorem Numeral.isDigit_of_mem (n : Numeral) {b : Byte} (h : b ∈ n.text) : isDigit b = true :=
  List.all_eq_true.mp n.digit b h

theorem Numeral.notMem (n : Numeral) {b : Byte} (h : isDigit b = false) : b ∉ n.text := fun hmem =>
  Bool.false_ne_true (h.symm.trans (n.isDigit_of_mem hmem))

theorem Numeral.number_text (n : Numeral) : number n.text = some n.value := if_pos ⟨n.nonempty, n.digit⟩

@[simp] theorem Numeral.value_printed (n : Nat) : (Numeral.printed n).value = n := Shell.decimal_digits n

@[simp] theorem TimeText.hour_time (t : TimeText) : t.time.hour = t.hour.value := by
  unfold TimeText.time
  split <;> rfl

/-- What a date is written with. -/
theorem DateText.notMem_text (d : DateText) {b : Byte} (hdigit : isDigit b = false) (h : b ≠ 74 ∧ b ≠ 77 ∧ b ≠ 46) :
    b ∉ d.text := by
  simp only [ne_eq, BitVec.ofNat_eq_ofNat] at h
  cases d with
  | julian n => simp [DateText.text, n.notMem hdigit, h]
  | month m w d => simp [DateText.text, m.notMem hdigit, w.notMem hdigit, d.notMem hdigit, h]

theorem TimeText.notMem_text (t : TimeText) {b : Byte} (hdigit : isDigit b = false) (h : b ≠ 58) : b ∉ t.text := by
  simp only [ne_eq, BitVec.ofNat_eq_ofNat] at h
  obtain ⟨hour, behind⟩ := t
  obtain _ | ⟨m, _ | s⟩ := behind
  · simp [TimeText.text, TimeText.behindText, hour.notMem hdigit]
  · simp [TimeText.text, TimeText.behindText, hour.notMem hdigit, m.notMem hdigit, h]
  · simp [TimeText.text, TimeText.behindText, hour.notMem hdigit, m.notMem hdigit, s.notMem hdigit, h]

theorem RuleText.notMem_text (r : RuleText) {b : Byte} (hdigit : isDigit b = false)
    (h : b ≠ 74 ∧ b ≠ 77 ∧ b ≠ 46 ∧ b ≠ 47 ∧ b ≠ 58) : b ∉ r.text := by
  have hdate := r.date.notMem_text hdigit ⟨h.1, h.2.1, h.2.2.1⟩
  unfold RuleText.text
  split
  · exact hdate
  · rename_i t _
    rw [List.mem_append, List.mem_cons, not_or, not_or]
    exact ⟨hdate, h.2.2.2.1, t.notMem_text hdigit h.2.2.2.2⟩

theorem parseDate_text (d : DateText) : parseDate d.text = some d.date := by
  cases d with
  | julian n =>
    rw [DateText.text, parseDate, if_pos rfl, n.number_text]
    rfl
  | month m w d =>
    have hsplit : (m.text ++ 46 :: (w.text ++ 46 :: d.text)).splitOn 46 = [m.text, w.text, d.text] := by
      rw [Lines.splitOn_cut (m.notMem rfl), Lines.splitOn_cut (w.notMem rfl), List.splitOn_eq_singleton (d.notMem rfl)]
    rw [DateText.text, parseDate, if_neg (by decide), if_pos rfl, hsplit]
    dsimp only
    rw [m.number_text, w.number_text, d.number_text]
    rfl

theorem parseTime_text (t : TimeText) : parseTime t.text = some t.time := by
  obtain ⟨hour, behind⟩ := t
  obtain _ | ⟨m, _ | s⟩ := behind
  · have hsplit : (TimeText.text ⟨hour, none⟩).splitOn 58 = [hour.text] := by
      rw [TimeText.text, TimeText.behindText, List.append_nil, List.splitOn_eq_singleton (hour.notMem rfl)]
    rw [parseTime, hsplit]
    dsimp only
    rw [hour.number_text]
    rfl
  · have hsplit : (TimeText.text ⟨hour, some (m, none)⟩).splitOn 58 = [hour.text, m.text] := by
      rw [TimeText.text, TimeText.behindText, Lines.splitOn_cut (hour.notMem rfl),
        List.splitOn_eq_singleton (m.notMem rfl)]
    rw [parseTime, hsplit]
    dsimp only
    rw [hour.number_text, m.number_text]
    rfl
  · have hsplit : (TimeText.text ⟨hour, some (m, some s)⟩).splitOn 58 = [hour.text, m.text, s.text] := by
      rw [TimeText.text, TimeText.behindText, Lines.splitOn_cut (hour.notMem rfl), Lines.splitOn_cut (m.notMem rfl),
        List.splitOn_eq_singleton (s.notMem rfl)]
    rw [parseTime, hsplit]
    dsimp only
    rw [hour.number_text, m.number_text, s.number_text]
    rfl

/-- What is written is read. -/
theorem parseRule_text (r : RuleText) : parseRule r.text = some r.rule := by
  obtain ⟨date, _ | time⟩ := r
  · have hsplit : (RuleText.text ⟨date, none⟩).splitOn 47 = [date.text] :=
      List.splitOn_eq_singleton (date.notMem_text rfl (by decide))
    rw [parseRule, hsplit]
    dsimp only
    rw [parseDate_text]
    rfl
  · have hsplit : (RuleText.text ⟨date, some time⟩).splitOn 47 = [date.text, time.text] := by
      rw [RuleText.text]
      dsimp only
      rw [Lines.splitOn_cut (date.notMem_text rfl (by decide)),
        List.splitOn_eq_singleton (time.notMem_text rfl (by decide))]
    rw [parseRule, hsplit]
    dsimp only
    rw [parseDate_text, parseTime_text]
    rfl

/-! ### Weekdays -/

section Weekday
variable {first length w d q : Nat}

/-- A later weekday of the same week comes so many days later, or a week before that. -/
theorem daysBefore_add (hlength : 28 ≤ length) (hq : d + q ≤ 6) :
    daysBefore first length w (d + q) = daysBefore first length w d + q ∨
      daysBefore first length w (d + q) + 7 = daysBefore first length w d + q := by
  have hfirst := weekday_lt first
  unfold daysBefore
  dsimp only
  split <;> split <;> omega

end Weekday

/-- Whole days may be carried from the hours into the weekday: the instant stays, or it is a week earlier. -/
theorem seconds_carry {m w d h : Nat} (minute second : Nat) (hm : 1 ≤ m ∧ m ≤ 12) (hcarry : d + h / 24 ≤ 6) (y : Nat) :
    Rule.seconds y ⟨.month m w (d + h / 24), ⟨h % 24, minute, second⟩⟩ =
        Rule.seconds y ⟨.month m w d, ⟨h, minute, second⟩⟩ ∨
      Rule.seconds y ⟨.month m w (d + h / 24), ⟨h % 24, minute, second⟩⟩ + 7 * 86400 =
        Rule.seconds y ⟨.month m w d, ⟨h, minute, second⟩⟩ := by
  have hlength := (monthLength_bounds (y := y) hm.1 hm.2).1
  have hadd := @daysBefore_add (Calendar.dayNumber y m 1) _ w d _ hlength hcarry
  simp only [Rule.seconds, Date.dayNumber]
  omega

end Thingino.Lib.PosixTz
