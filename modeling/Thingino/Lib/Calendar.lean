import Mathlib.Data.Nat.Find
import Mathlib.Order.Monotone.Basic

/-! The Gregorian calendar, carried back to the year 0.

A day is a number; day 0 is the first of January of the year 0, a Saturday. Year, month and day of the
month are found again by counting back (`dayOfMonth_dayNumber`). Months are numbered from 1, weekdays
from 0 for Sunday. -/
namespace Thingino.Lib.Calendar

def isLeap (y : Nat) : Bool := y % 4 = 0 && (y % 100 ≠ 0 || y % 400 = 0)

def yearLength (y : Nat) : Nat := if isLeap y then 366 else 365

/-- The days before the first of January. -/
def daysBeforeYear (y : Nat) : Nat := 365 * y + (y + 3) / 4 + (y + 399) / 400 - (y + 99) / 100

def monthLength (y m : Nat) : Nat :=
  match m with
  | 1 | 3 | 5 | 7 | 8 | 10 | 12 => 31
  | 4 | 6 | 9 | 11 => 30
  | 2 => if isLeap y then 29 else 28
  | _ => 0

/-- The days of the year before the first of a month. -/
def daysBeforeMonth (y : Nat) : Nat → Nat
  | 0 => 0
  | m + 1 => daysBeforeMonth y m + monthLength y m

def dayNumber (y m d : Nat) : Nat := daysBeforeYear y + daysBeforeMonth y m + (d - 1)

def weekday (n : Nat) : Nat := (n + 6) % 7

/-- The year of a day. -/
def year (n : Nat) : Nat := Nat.findGreatest (fun y => daysBeforeYear y ≤ n) (n / 365)

/-- The days of the year before a day. -/
def dayOfYear (n : Nat) : Nat := n - daysBeforeYear (year n)

def month (n : Nat) : Nat := Nat.findGreatest (fun m => daysBeforeMonth (year n) m ≤ dayOfYear n) 12

def dayOfMonth (n : Nat) : Nat := dayOfYear n - daysBeforeMonth (year n) (month n) + 1

/-- The first of January 1970. -/
def epoch : Nat := 719528

example : daysBeforeYear 1970 = epoch := by decide

/-! ### Years -/

theorem daysBeforeYear_succ (y : Nat) : daysBeforeYear (y + 1) = daysBeforeYear y + yearLength y := by
  have h4 : (y + 1 + 3) / 4 = (y + 3) / 4 + (if y % 4 = 0 then 1 else 0) := by split <;> omega
  have h100 : (y + 1 + 99) / 100 = (y + 99) / 100 + (if y % 100 = 0 then 1 else 0) := by split <;> omega
  have h400 : (y + 1 + 399) / 400 = (y + 399) / 400 + (if y % 400 = 0 then 1 else 0) := by split <;> omega
  have hle : (y + 99) / 100 ≤ 365 * y := by omega
  have hleap : yearLength y + (if y % 100 = 0 then 1 else 0) =
      365 + (if y % 4 = 0 then 1 else 0) + (if y % 400 = 0 then 1 else 0) := by
    have hcases : y % 4 ≠ 0 ∧ y % 100 ≠ 0 ∧ y % 400 ≠ 0 ∨ y % 4 = 0 ∧ y % 100 ≠ 0 ∧ y % 400 ≠ 0 ∨
        y % 4 = 0 ∧ y % 100 = 0 ∧ y % 400 ≠ 0 ∨ y % 4 = 0 ∧ y % 100 = 0 ∧ y % 400 = 0 := by omega
    obtain ⟨h4, h100, h400⟩ | ⟨h4, h100, h400⟩ | ⟨h4, h100, h400⟩ | ⟨h4, h100, h400⟩ := hcases <;>
      simp [yearLength, isLeap, h4, h100, h400]
  rw [daysBeforeYear, h4, h100, h400, daysBeforeYear]
  omega

theorem yearLength_bounds (y : Nat) : 365 ≤ yearLength y ∧ yearLength y ≤ 366 := by
  unfold yearLength
  split <;> omega

theorem daysBeforeYear_strictMono : StrictMono daysBeforeYear := by
  apply strictMono_nat_of_lt_succ
  intro y
  have hlength := (yearLength_bounds y).1
  rw [daysBeforeYear_succ]
  omega

theorem le_daysBeforeYear (y : Nat) : 365 * y ≤ daysBeforeYear y := by
  unfold daysBeforeYear
  omega

/-- Every day belongs to its year. -/
theorem year_spec (n : Nat) : daysBeforeYear (year n) ≤ n ∧ n < daysBeforeYear (year n + 1) := by
  have hle : daysBeforeYear (year n) ≤ n :=
    @Nat.findGreatest_spec 0 (fun y => daysBeforeYear y ≤ n) _ (n / 365) (Nat.zero_le _) (Nat.zero_le n)
  refine ⟨hle, Nat.not_le.mp fun hge => ?_⟩
  have hbound : year n + 1 ≤ n / 365 := by
    have hdays := le_daysBeforeYear (year n + 1)
    omega
  have hgreatest : year n + 1 ≤ year n := Nat.le_findGreatest hbound hge
  omega

/-- A day of a year is found in it. -/
theorem year_eq {y k : Nat} (h : k < yearLength y) : year (daysBeforeYear y + k) = y := by
  obtain ⟨hle, hlt⟩ := year_spec (daysBeforeYear y + k)
  have hnext : daysBeforeYear y + k < daysBeforeYear (y + 1) := by
    rw [daysBeforeYear_succ]
    omega
  have hupper := daysBeforeYear_strictMono.lt_iff_lt.mp (hle.trans_lt hnext)
  have hlower := daysBeforeYear_strictMono.lt_iff_lt.mp ((Nat.le_add_right _ _).trans_lt hlt)
  omega

theorem dayOfYear_eq {y k : Nat} (h : k < yearLength y) : dayOfYear (daysBeforeYear y + k) = k := by
  rw [dayOfYear, year_eq h]
  omega

/-! ### Months -/

theorem daysBeforeMonth_mono (y : Nat) : Monotone (daysBeforeMonth y) :=
  monotone_nat_of_le_succ fun _ => Nat.le_add_right _ _

theorem daysBeforeMonth_thirteen (y : Nat) : daysBeforeMonth y 13 = yearLength y := by
  simp only [daysBeforeMonth, monthLength, yearLength]
  split <;> rfl

theorem dayOfYear_lt {y m k : Nat} (hm : m ≤ 12) (hk : k < monthLength y m) : daysBeforeMonth y m + k < yearLength y := by
  have hmono := daysBeforeMonth_mono y (Nat.succ_le_succ hm)
  rw [daysBeforeMonth_thirteen, Nat.succ_eq_add_one, daysBeforeMonth] at hmono
  omega

theorem month_eq {y m k : Nat} (hm : m ≤ 12) (hk : k < monthLength y m) :
    month (daysBeforeYear y + (daysBeforeMonth y m + k)) = m := by
  have hlt := dayOfYear_lt hm hk
  rw [month, year_eq hlt, dayOfYear_eq hlt]
  apply le_antisymm
  · by_contra hgt
    have hspec : daysBeforeMonth y (Nat.findGreatest (fun m' => daysBeforeMonth y m' ≤ daysBeforeMonth y m + k) 12) ≤
        daysBeforeMonth y m + k :=
      @Nat.findGreatest_spec m (fun m' => daysBeforeMonth y m' ≤ daysBeforeMonth y m + k) _ 12 hm (Nat.le_add_right _ _)
    have hmono := daysBeforeMonth_mono y (Nat.succ_le_of_lt (Nat.not_le.mp hgt))
    rw [Nat.succ_eq_add_one, daysBeforeMonth] at hmono
    omega
  · exact Nat.le_findGreatest hm (Nat.le_add_right _ _)

/-- A date is found again in its number. -/
theorem dayOfMonth_dayNumber {y m d : Nat} (hm : m ≤ 12) (hd : 1 ≤ d) (hlast : d ≤ monthLength y m) :
    year (dayNumber y m d) = y ∧ month (dayNumber y m d) = m ∧ dayOfMonth (dayNumber y m d) = d := by
  have hk : d - 1 < monthLength y m := by omega
  have hlt := dayOfYear_lt hm hk
  have hnumber : dayNumber y m d = daysBeforeYear y + (daysBeforeMonth y m + (d - 1)) := Nat.add_assoc _ _ _
  have hyear := year_eq hlt
  have hmonth := month_eq hm hk
  rw [hnumber]
  refine ⟨hyear, hmonth, ?_⟩
  rw [dayOfMonth, dayOfYear_eq hlt, hyear, hmonth]
  omega

theorem weekday_lt (n : Nat) : weekday n < 7 := Nat.mod_lt _ (by decide)

theorem monthLength_bounds {y m : Nat} (h1 : 1 ≤ m) (h12 : m ≤ 12) : 28 ≤ monthLength y m ∧ monthLength y m ≤ 31 := by
  have hcases : m = 1 ∨ m = 2 ∨ m = 3 ∨ m = 4 ∨ m = 5 ∨ m = 6 ∨ m = 7 ∨ m = 8 ∨ m = 9 ∨ m = 10 ∨ m = 11 ∨ m = 12 := by
    omega
  obtain rfl | rfl | rfl | rfl | rfl | rfl | rfl | rfl | rfl | rfl | rfl | rfl := hcases
  all_goals simp [monthLength]
  split <;> decide

example : year (dayNumber 2024 2 29) = 2024 ∧ weekday (dayNumber 2024 2 29) = 4 := by decide

end Thingino.Lib.Calendar
