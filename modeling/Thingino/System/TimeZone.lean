import Thingino.Lib.Awk
import Thingino.Lib.Lines
import Thingino.Lib.PosixTz

/-! `tz-update`: from the name of a zone to a rule that uClibc can read.

The rule is looked up in `tz.json` by `sed`, `grep -F` and `cut`. An hour beyond 24 is taken for unsafe,
and then whole days are carried from the hours into the weekday. For Israel the rule is calculated: the
spring date is found by stepping back from the end of March, with `date` at noon. -/
namespace Thingino.System.TimeZone
open Lib Calendar PosixTz

/-! ### The lookup -/

/-- `s/pat/rep/g`, where the first `skip` bytes belong to a match already. -/
def replaceFrom (pat rep : List Byte) : Nat → List Byte → List Byte
  | _, [] => []
  | skip + 1, _ :: s => replaceFrom pat rep skip s
  | 0, b :: s => if pat <+: b :: s then rep ++ replaceFrom pat rep (pat.length - 1) s else b :: replaceFrom pat rep 0 s

/-- The lines of a text, the last one with or without its newline. -/
def textLines (s : List Byte) : List (List Byte) :=
  if (s.splitOn 10).getLast? = some [] then (s.splitOn 10).dropLast else s.splitOn 10

/-- `s/^\[{//`. -/
def stripOpen (line : List Byte) : List Byte := if ascii "[\x7b" <+: line then line.drop 2 else line

/-- `s/}\]$//`. -/
def stripClose (line : List Byte) : List Byte :=
  if ascii "\x7d]" <:+ line then line.take (line.length - 2) else line

/-- `"n":"\([^"]*\)","v":"\([^"]*\)"` at the start: the two groups, and what follows. -/
def matchEntry (s : List Byte) : Option (List Byte × List Byte × List Byte) :=
  if ascii "\"n\":\"" <+: s then
    let n := (s.drop 5).takeWhile (· ≠ 34)
    let s := (s.drop 5).dropWhile (· ≠ 34)
    if ascii "\",\"v\":\"" <+: s then
      let v := (s.drop 7).takeWhile (· ≠ 34)
      match (s.drop 7).dropWhile (· ≠ 34) with
      | [] => none
      | _ :: rest => some (n, v, rest)
    else none
  else none

/-- `s/…/\1:\2/`. -/
def reorder : List Byte → List Byte
  | [] => []
  | b :: s =>
    match matchEntry (b :: s) with
    | some (n, v, rest) => n ++ 58 :: (v ++ rest)
    | none => b :: reorder s

/-- What the three `sed` make of the file. -/
def entryLines (file : List Byte) : List (List Byte) :=
  (textLines (replaceFrom (ascii "\x7d,\x7b") [10] 0 file)).map fun line => reorder (stripClose (stripOpen line))

/-- `grep -F "$1:" | head -1 | cut -d: -f2-`. -/
def lookupTzjson (name file : List Byte) : List Byte :=
  match (entryLines file).find? fun line => name ++ [58] <:+: line with
  | some line => Shell.output (if line.contains 58 then (line.dropWhile (· ≠ 58)).tail else line)
  | none => []

/-! ### The repair -/

/-- `([,:]|$)`. -/
def endsHour : List Byte → Bool
  | [] => true
  | c :: _ => c = 44 || c = 58

/-- `(2[5-9]|[3-9][0-9]|1[0-6][0-9])([,:]|$)` at the start. -/
def unsafeHour : List Byte → Bool
  | a :: b :: s =>
    ((a = 50 && 53 ≤ b.toNat && b.toNat ≤ 57 || 51 ≤ a.toNat && a.toNat ≤ 57 && isDigit b) && endsHour s) ||
      match s with
      | c :: s => a = 49 && 48 ≤ b.toNat && b.toNat ≤ 54 && isDigit c && endsHour s
      | [] => false
  | _ => false

/-- The pattern with its `/` is somewhere in the line. -/
def hasUnsafeHour : List Byte → Bool
  | [] => false
  | b :: s => b = 47 && unsafeHour s || hasUnsafeHour s

def needsFix (raw : List Byte) : Bool := (textLines (Shell.echo raw)).any hasUnsafeHour

def matchByte (c : Byte) : List Byte → Option (List Byte)
  | [] => none
  | b :: s => if b = c then some s else none

/-- `[0-9]+`. -/
def matchDigits (s : List Byte) : Option (List Byte) :=
  if s.takeWhile isDigit = [] then none else some (s.dropWhile isDigit)

/-- `^M[0-9]+\.[0-9]+\.[0-9]+\/[0-9]+`. -/
def matchesRule (f : List Byte) : Bool :=
  ((matchByte 77 f).bind fun s => (matchDigits s).bind fun s => (matchByte 46 s).bind fun s => (matchDigits s).bind fun s =>
    (matchByte 46 s).bind fun s => (matchDigits s).bind fun s => (matchByte 47 s).bind matchDigits).isSome

/-- A text as a number of `awk`: the digits in front. -/
def number (s : List Byte) : Nat := Shell.decimal (s.takeWhile isDigit)

def fix (f : List Byte) : List Byte :=
  if matchesRule f then
    let mwd := Awk.split 47 f
    let h := number (mwd 1)
    if 24 < h then
      let q := Awk.split 46 (mwd 0)
      let m := number ((q 0).drop 1)
      let w := number (q 1)
      let d := number (q 2)
      let (nd, nh) := if 6 < d + h / 24 then (d, 24) else (d + h / 24, h % 24)
      77 :: Shell.digits m ++ 46 :: Shell.digits w ++ 46 :: Shell.digits nd ++ 47 :: Shell.digits nh
    else f
  else f

def sanitizeHours (raw : List Byte) : List Byte :=
  Shell.output ([44].intercalate (((Awk.record (Shell.echo raw)).splitOn 44).map fix) ++ [10])

/-! ### Israel -/

/-- `date -u`: the year, noon of the last of March of a year, and weekday and day of the month of a second. What
fails prints nothing. -/
structure DateCommand where
  year : Option (List Byte)
  lastOfMarch : List Byte → Option Int
  weekday : Int → List Byte
  dayOfMonth : Int → Option (List Byte)

/-- What the script stands on: `date`, and the shell where a number is too large for it. -/
structure Tools where
  date : DateCommand
  wide : List Byte → Option Int

section Israel
variable (t : Tools)

/-- The loop that steps back, for so many rounds; `none` is a loop that has not ended. -/
def stepBack : Nat → Int → Option Int
  | 0, _ => none
  | rounds + 1, e => if t.date.weekday e = ascii "0" then some e else stepBack rounds (e - 86400)

/-- `${_dom#0}`. -/
def stripZero (s : List Byte) : List Byte := if s.head? = some 48 then s.tail else s

/-- Within so many rounds of its loop: the number it prints, or no number on a failure. -/
def israelSpringJn (rounds : Nat) : Option (Option (List Byte)) :=
  match t.date.year.bind t.date.lastOfMarch with
  | none => some none
  | some e =>
    (stepBack t rounds e).map fun e =>
      (t.date.dayOfMonth (e - 172800)).bind fun dom =>
        if stripZero dom = [] then none
        else (Shell.arith t.wide (stripZero dom)).map fun dom => Shell.digits (59 + dom).toNat

/-- `resolve_tz` for the zones that are looked up. -/
def generic (raw : List Byte) : List Byte := if needsFix raw then sanitizeHours raw else Shell.echoed raw

def resolveTz (rounds : Nat) (name raw : List Byte) : Option (List Byte) :=
  if name = ascii "Asia/Jerusalem" then
    (israelSpringJn t rounds).map fun
      | some jn => ascii "IST-2IDT,J" ++ jn ++ ascii "/2,M10.5.0/2"
      | none => generic raw
  else some (generic raw)

end Israel

/-! ### `date` -/

/-- `%d`. -/
def twoDigits (n : Nat) : List Byte := if n < 10 then 48 :: Shell.digits n else Shell.digits n

/-- The day that a second since the epoch belongs to. -/
def dayOf (e : Int) : Nat := (e / 86400 + epoch).toNat

def noon (n : Nat) : Int := ((n : Int) - epoch) * 86400 + 43200

/-- `date` with the Gregorian calendar. -/
def gregorian (now : Nat) : DateCommand where
  year := some (Shell.digits (Calendar.year (epoch + now / 86400)))
  lastOfMarch y := some (noon (dayNumber (Shell.decimal y) 3 31))
  weekday e := Shell.digits (Calendar.weekday (dayOf e))
  dayOfMonth e := some (twoDigits (Calendar.dayOfMonth (dayOf e)))

theorem dayOf_noon (n : Nat) : dayOf (noon n) = n := by
  unfold dayOf noon
  omega

/-- From a day of that weekday the loop comes to the Sunday before. -/
theorem stepBack_eq {t : Tools} {now : Nat} (hdate : t.date = gregorian now) (rounds : Nat) {n k : Nat} (hn : k ≤ n)
    (hk : weekday n = k) : stepBack t (rounds + k + 1) (noon n) = some (noon (n - k)) := by
  induction k generalizing n with
  | zero =>
    have hzero : t.date.weekday (noon n) = ascii "0" := by
      rw [hdate]
      show Shell.digits (weekday (dayOf (noon n))) = ascii "0"
      rw [dayOf_noon, hk]
      decide
    rw [stepBack, if_pos hzero]
    rfl
  | succ k ih =>
    have hne : t.date.weekday (noon n) ≠ ascii "0" := by
      rw [hdate]
      show Shell.digits (weekday (dayOf (noon n))) ≠ Shell.digits 0
      rw [dayOf_noon, hk]
      exact fun h => absurd (Shell.digits_injective h) (Nat.succ_ne_zero k)
    have hbefore : weekday (n - 1) = k := by
      unfold weekday at hk ⊢
      omega
    have hstep : noon n - 86400 = noon (n - 1) := by
      unfold noon
      omega
    have hrest := @ih (n - 1) (by omega) hbefore
    rw [Nat.add_assoc, Nat.sub_sub, Nat.add_comm 1 k] at hrest
    rw [stepBack, if_neg hne, hstep, hrest]

/-! ### The spring date -/

section Spring
variable (y : Nat)

/-- How many days the last Sunday of March is before the end of the month. -/
def daysBehindSunday : Nat := weekday (dayNumber y 3 31)

/-- The last Sunday of March. -/
structure IsLastSunday (sunday : Nat) : Prop where
  weekday : weekday sunday = 0
  year : year sunday = y
  month : month sunday = 3
  last : Calendar.month (sunday + 7) = 4

theorem daysBehindSunday_le : daysBehindSunday y ≤ 6 := Nat.le_of_lt_succ (weekday_lt _)

theorem march_sub {k : Nat} (hk : k ≤ 30) : dayNumber y 3 31 - k = dayNumber y 3 (31 - k) := by
  unfold dayNumber
  omega

theorem daysBeforeMonth_march : daysBeforeMonth y 3 = if isLeap y then 60 else 59 := by
  simp only [daysBeforeMonth, monthLength]
  split <;> rfl

theorem isLastSunday : IsLastSunday y (dayNumber y 3 (31 - daysBehindSunday y)) := by
  have hk := daysBehindSunday_le y
  have hdate := @dayOfMonth_dayNumber y 3 (31 - daysBehindSunday y) (by decide) (by omega) (Nat.sub_le _ _)
  have hnext := @dayOfMonth_dayNumber y 4 (7 - daysBehindSunday y) (by decide) (by omega) (show _ ≤ 30 by omega)
  have hweek : dayNumber y 3 (31 - daysBehindSunday y) + 7 = dayNumber y 4 (7 - daysBehindSunday y) := by
    have hmonth : daysBeforeMonth y 4 = daysBeforeMonth y 3 + 31 := rfl
    unfold dayNumber
    omega
  refine ⟨?_, hdate.1, hdate.2.1, ?_⟩
  · have hdef : daysBehindSunday y = (dayNumber y 3 31 + 6) % 7 := rfl
    have hlate : 30 ≤ dayNumber y 3 31 := Nat.le_add_left _ _
    rw [← march_sub y (by omega), weekday]
    omega
  · rw [hweek]
    exact hnext.2.1

/-- The day that `J88` and so on stand for. -/
theorem julian_spring : (Date.julian (88 - daysBehindSunday y)).dayNumber y = dayNumber y 3 (29 - daysBehindSunday y) := by
  have hk := daysBehindSunday_le y
  have hmarch := daysBeforeMonth_march y
  rw [Date.dayNumber, dayNumber, hmarch]
  cases isLeap y with
  | true =>
    rw [if_pos (by simp; omega), if_pos rfl]
    omega
  | false =>
    rw [if_neg (by simp), if_neg Bool.false_ne_true]
    omega

/-- The fourth Thursday is the day before. -/
theorem thursday_spring : (Date.month 3 4 4).dayNumber y + 1 = dayNumber y 3 (29 - daysBehindSunday y) := by
  have hk := daysBehindSunday_le y
  have hdef : daysBehindSunday y = (dayNumber y 3 31 + 6) % 7 := rfl
  have hlength : monthLength y 3 = 31 := rfl
  rw [Date.dayNumber, hlength]
  unfold daysBefore weekday
  dsimp only
  unfold dayNumber at hdef ⊢
  split <;> omega

end Spring

theorem twoDigits_spring {n : Nat} (h : 10 ≤ n) : stripZero (twoDigits n) = Shell.digits n := by
  rw [twoDigits, if_neg (Nat.not_lt.mpr h)]
  exact if_neg (Shell.head?_digits_of_ne_zero (by omega))

/-- The loop ends, and the number is printed. -/
theorem israelSpringJn_eq {t : Tools} {now : Nat} (hdate : t.date = gregorian now) {rounds : Nat} (hrounds : 7 ≤ rounds) :
    israelSpringJn t rounds = some (some (Shell.digits (88 - daysBehindSunday (year (epoch + now / 86400))))) := by
  generalize hy : year (epoch + now / 86400) = y
  have hk := daysBehindSunday_le y
  have hlast : t.date.year.bind t.date.lastOfMarch = some (noon (dayNumber y 3 31)) := by
    rw [hdate, ← hy]
    show some (noon (dayNumber (Shell.decimal (Shell.digits (year (epoch + now / 86400)))) 3 31)) = _
    rw [Shell.decimal_digits]
  have hloop : stepBack t rounds (noon (dayNumber y 3 31)) = some (noon (dayNumber y 3 (31 - daysBehindSunday y))) := by
    have hbound : daysBehindSunday y ≤ dayNumber y 3 31 := by
      unfold dayNumber
      omega
    have hsteps := stepBack_eq hdate (rounds - daysBehindSunday y - 1) hbound rfl
    have hcount : rounds - daysBehindSunday y - 1 + daysBehindSunday y + 1 = rounds := by omega
    rw [hcount, march_sub y (by omega)] at hsteps
    exact hsteps
  have hfriday : noon (dayNumber y 3 (31 - daysBehindSunday y)) - 172800 = noon (dayNumber y 3 (29 - daysBehindSunday y)) := by
    unfold noon dayNumber
    omega
  have hdom : t.date.dayOfMonth (noon (dayNumber y 3 (29 - daysBehindSunday y))) =
      some (twoDigits (29 - daysBehindSunday y)) := by
    rw [hdate]
    show some (twoDigits (dayOfMonth (dayOf (noon (dayNumber y 3 (29 - daysBehindSunday y)))))) = _
    rw [dayOf_noon, (dayOfMonth_dayNumber (by decide) (by omega) (show _ ≤ 31 by omega)).2.2]
  have harith := Shell.arith_digits t.wide (n := 29 - daysBehindSunday y) (by unfold Shell.testMax; omega)
  rw [israelSpringJn, hlast]
  dsimp only
  rw [hloop, Option.map_some, hfriday, hdom, Option.bind_some, twoDigits_spring (by omega),
    if_neg (Shell.digits_ne_nil _), harith, Option.map_some]
  congr 3
  omega

/-! ### The rule as it is read -/

theorem number_digits (n : Nat) : PosixTz.number (Shell.digits n) = some n := by
  rw [PosixTz.number, if_pos ⟨Shell.digits_ne_nil n, Shell.all_isDigit_digits n⟩, Shell.decimal_digits]

/-- The text that `resolve_tz` prints, taken apart. -/
theorem ruleTexts_israel (n : Nat) : (ruleTexts (ascii "IST-2IDT,J" ++ Shell.digits n ++ ascii "/2,M10.5.0/2")).map parseRule =
    [some ⟨.julian n, ⟨2, 0, 0⟩⟩, some ⟨.month 10 5 0, ⟨2, 0, 0⟩⟩] := by
  have hcomma : (44 : Byte) ∉ 74 :: (Shell.digits n ++ ascii "/2") := by
    simpa [ascii] using Shell.notMem_digits (b := 44) rfl n
  have hslash : (47 : Byte) ∉ 74 :: Shell.digits n := by
    simpa using Shell.notMem_digits (b := 47) rfl n
  have htext : ascii "IST-2IDT,J" ++ Shell.digits n ++ ascii "/2,M10.5.0/2" =
      ascii "IST-2IDT" ++ 44 :: (74 :: (Shell.digits n ++ ascii "/2") ++ 44 :: ascii "M10.5.0/2") := by
    have hhead : ascii "IST-2IDT,J" = ascii "IST-2IDT" ++ [44, 74] := by decide
    have htail : ascii "/2,M10.5.0/2" = ascii "/2" ++ 44 :: ascii "M10.5.0/2" := by decide
    rw [hhead, htail]
    simp only [List.append_assoc, List.cons_append, List.nil_append]
  have hrule : parseRule (74 :: (Shell.digits n ++ ascii "/2")) = some ⟨.julian n, ⟨2, 0, 0⟩⟩ := by
    have htwo : (ascii "2").splitOn 47 = [ascii "2"] := by decide
    have hsplit : (74 :: (Shell.digits n ++ ascii "/2")).splitOn 47 = [74 :: Shell.digits n, ascii "2"] := by
      rw [← htwo]
      exact Lines.splitOn_cut hslash (ascii "2")
    have htime : parseTime (ascii "2") = some ⟨2, 0, 0⟩ := by decide
    rw [parseRule, hsplit]
    dsimp only
    rw [parseDate, if_pos rfl, number_digits, htime]
    rfl
  rw [ruleTexts, htext, Lines.splitOn_cut (by decide), List.tail_cons, Lines.splitOn_cut hcomma, List.map_cons, hrule]
  congr 1

/-- **The Israel rule is exact in every year**: the number is found, and in the year of the clock the rule with it
starts at two o'clock on the Friday before the last Sunday of March, when the glibc rule does, and ends when
`M10.5.0` does. -/
theorem israel_rule_exact (now rounds : Nat) (wide : List Byte → Option Int) (raw : List Byte) :
    ∃ n start finish sunday glibc october, let y := year (epoch + now / 86400)
      israelSpringJn ⟨gregorian now, wide⟩ (rounds + 7) = some (some (Shell.digits n)) ∧
      resolveTz ⟨gregorian now, wide⟩ (rounds + 7) (ascii "Asia/Jerusalem") raw =
        some (ascii "IST-2IDT,J" ++ Shell.digits n ++ ascii "/2,M10.5.0/2") ∧
      (ruleTexts (ascii "IST-2IDT,J" ++ Shell.digits n ++ ascii "/2,M10.5.0/2")).map parseRule = [some start, some finish] ∧
      IsLastSunday y sunday ∧ Rule.seconds y start = (sunday - 2) * 86400 + 2 * 3600 ∧
      parseRule (ascii "M3.4.4/26") = some glibc ∧ Rule.seconds y start = Rule.seconds y glibc ∧
      parseRule (ascii "M10.5.0") = some october ∧ Rule.seconds y finish = Rule.seconds y october := by
  generalize hy : year (epoch + now / 86400) = y
  have hjn := israelSpringJn_eq (t := ⟨gregorian now, wide⟩) rfl (Nat.le_add_left 7 rounds)
  rw [hy] at hjn
  have hk := daysBehindSunday_le y
  have hjulian := julian_spring y
  have hthursday := thursday_spring y
  have hfriday : dayNumber y 3 (31 - daysBehindSunday y) - 2 = dayNumber y 3 (29 - daysBehindSunday y) := by
    unfold dayNumber
    omega
  refine ⟨88 - daysBehindSunday y, _, _, dayNumber y 3 (31 - daysBehindSunday y), ⟨.month 3 4 4, ⟨26, 0, 0⟩⟩,
    ⟨.month 10 5 0, ⟨2, 0, 0⟩⟩, hjn, ?_, ruleTexts_israel _, isLastSunday y, ?_, by decide, ?_, by decide, rfl⟩
  · rw [resolveTz, if_pos rfl, hjn]
    rfl
  · rw [hfriday, ← hjulian]
    simp only [Rule.seconds]
  · simp only [Rule.seconds]
    omega

end Thingino.System.TimeZone
