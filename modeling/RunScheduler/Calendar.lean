/-!
# The calendar

Days of the proleptic Gregorian calendar, counted from 1 January 1970, and the weekday, year,
month and day of each. Main fact: from one year to the next the count of days before a year
grows by the length of the year.
-/

namespace RunScheduler

/-! ## Weekdays -/

inductive Weekday
  | monday | tuesday | wednesday | thursday | friday | saturday | sunday
deriving DecidableEq, Repr, Inhabited

namespace Weekday

/-- The place in a week that starts on Monday, from 0. -/
def index : Weekday → Nat
  | .monday => 0 | .tuesday => 1 | .wednesday => 2 | .thursday => 3
  | .friday => 4 | .saturday => 5 | .sunday => 6

def all : List Weekday :=
  [.monday, .tuesday, .wednesday, .thursday, .friday, .saturday, .sunday]

/-- The weekday at a place in a week that starts on Monday, taken modulo seven. -/
def ofIndex (n : Nat) : Weekday :=
  match n % 7 with
  | 0 => .monday | 1 => .tuesday | 2 => .wednesday | 3 => .thursday
  | 4 => .friday | 5 => .saturday | _ => .sunday

/-- The place in a week that starts on Sunday, from 1. -/
def fromSunday (w : Weekday) : Nat :=
  (w.index + 1) % 7 + 1

theorem index_lt (w : Weekday) : w.index < 7 := by
  cases w <;> decide

theorem ofIndex_index (w : Weekday) : ofIndex w.index = w := by
  cases w <;> rfl

theorem index_ofIndex (n : Nat) : (ofIndex n).index = n % 7 := by
  have h : n % 7 < 7 := Nat.mod_lt _ (by decide)
  unfold ofIndex
  split <;> simp_all [index]
  omega

theorem index_injective {v w : Weekday} (h : v.index = w.index) : v = w := by
  rw [← ofIndex_index v, h, ofIndex_index]

end Weekday

/-! ## Years and months -/

namespace Calendar

def isLeap (year : Int) : Bool :=
  year % 4 == 0 && (year % 100 != 0 || year % 400 == 0)

def yearLength (year : Int) : Nat :=
  if isLeap year then 366 else 365

/-- The number of days of a month from 1 to 12; no other month has days. -/
def daysInMonth (year : Int) (month : Nat) : Nat :=
  match month with
  | 1 | 3 | 5 | 7 | 8 | 10 | 12 => 31
  | 4 | 6 | 9 | 11 => 30
  | 2 => if isLeap year then 29 else 28
  | _ => 0

/-- The days of a year before the first of a month. -/
def daysBeforeMonth (year : Int) : (month : Nat) → Nat
  | 0 => 0
  | month + 1 => daysBeforeMonth year month + daysInMonth year month

/-- The days from 1 January of year 1 to 1 January of a year. -/
def daysBeforeYear (year : Int) : Int :=
  365 * (year - 1) + (year - 1) / 4 - (year - 1) / 100 + (year - 1) / 400

/-- The days from 1 January of year 1 to 1 January 1970. -/
def epochOffset : Int := 719162

/-- The number of a day, 0 on 1 January 1970. -/
def dayNumber (year : Int) (month day : Nat) : Int :=
  daysBeforeYear year + daysBeforeMonth year month + day - 1 - epochOffset

example : dayNumber 1970 1 1 = 0 := by decide

/-- The first day that has a number here: 1 January of year -262143. -/
def firstDay : Int := -96465292

example : firstDay = dayNumber (-262143) 1 1 := by decide

/-- The last day that has a number here: 31 December of year 262142. -/
def lastDay : Int := 95026236

example : lastDay = dayNumber 262142 12 31 := by decide

/-- Whether a year has such a month and the month such a day, inside the calendar. -/
def hasDay (year : Int) (month day : Nat) : Bool :=
  -262143 ≤ year && year ≤ 262142 && 1 ≤ day && day ≤ daysInMonth year month

/-- The number of a day that exists. -/
def dayNumber? (year : Int) (month day : Nat) : Option Int :=
  if hasDay year month day then some (dayNumber year month day) else none

/-- The year of a day: the one whose first day is the last not after it. An estimate from the
mean length of a year is off by one at most. -/
def yearOf (day : Int) : Int :=
  let n := day + epochOffset
  let estimate := n * 400 / 146097 + 1
  if n < daysBeforeYear estimate then estimate - 1
  else if daysBeforeYear (estimate + 1) ≤ n then estimate + 1
  else estimate

/-- The place of a day in its year, from 0. -/
def dayOfYear (day : Int) : Nat :=
  (day + epochOffset - daysBeforeYear (yearOf day)).toNat

/-- The last of the months up to `month` that begins at or before a place of the year. -/
def monthAt (year : Int) (place : Nat) : (month : Nat) → Nat
  | 0 => 1
  | 1 => 1
  | month + 1 =>
    if daysBeforeMonth year (month + 1) ≤ place then month + 1 else monthAt year place month

def monthOf (day : Int) : Nat :=
  monthAt (yearOf day) (dayOfYear day) 12

def dayOfMonth (day : Int) : Nat :=
  dayOfYear day - daysBeforeMonth (yearOf day) (monthOf day) + 1

/-- 1 January 1970 was a Thursday. -/
def weekdayOf (day : Int) : Weekday :=
  Weekday.ofIndex ((day + 3) % 7).toNat

/-! ## Small facts -/

theorem isLeap_iff (y : Int) : isLeap y = true ↔ y % 4 = 0 ∧ (y % 100 ≠ 0 ∨ y % 400 = 0) := by
  simp [isLeap]

theorem daysBeforeYear_succ (y : Int) :
    daysBeforeYear (y + 1) = daysBeforeYear y + yearLength y := by
  have h := isLeap_iff y
  unfold daysBeforeYear yearLength
  by_cases hl : isLeap y = true
  · have := h.1 hl
    simp only [hl, if_true]
    omega
  · have : ¬ (y % 4 = 0 ∧ (y % 100 ≠ 0 ∨ y % 400 = 0)) := fun hc => hl (h.2 hc)
    simp only [hl]
    simp only [Bool.false_eq_true, if_false]
    omega

end Calendar

end RunScheduler
