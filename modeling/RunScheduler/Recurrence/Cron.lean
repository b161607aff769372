import RunScheduler.Instant
import RunScheduler.LazyList

/-!
# Cron patterns

A cron pattern is a set of numbers for each unit of time: seconds, minutes, hours, days of the
month, months, weekdays (1 is Sunday) and years. An instant matches when each of its parts is
in its set; day of month and weekday must both match.

The next match is searched unit by unit from the years down, and every unit is tried from the
part of the starting instant on as long as all larger units still equal those of the start.
When the year of the start is not in its set, the search moves to a later year but still
starts there from the month, day and time of the start.
-/

namespace RunScheduler

namespace Cron

/-- The units of a pattern. -/
inductive Field
  | seconds | minutes | hours | daysOfMonth | months | daysOfWeek | years
deriving DecidableEq, Repr

/-- The least number of a unit. -/
def Field.least : Field → Nat
  | .seconds | .minutes | .hours => 0
  | .daysOfMonth | .months | .daysOfWeek => 1
  | .years => 1970

/-- The greatest number of a unit. -/
def Field.greatest : Field → Nat
  | .seconds | .minutes => 59
  | .hours => 23
  | .daysOfMonth => 31
  | .months => 12
  | .daysOfWeek => 7
  | .years => 2100

/-- All numbers of a unit, ascending. -/
def Field.all (f : Field) : List Nat :=
  List.range' f.least (f.greatest + 1 - f.least)

/-- A set of numbers for each unit, each in ascending order. -/
structure Pattern where
  seconds : List Nat
  minutes : List Nat
  hours : List Nat
  daysOfMonth : List Nat
  months : List Nat
  daysOfWeek : List Nat
  years : List Nat := Field.years.all
deriving DecidableEq, Repr

/-- A time of day. -/
structure Clock where
  hour : Nat
  minute : Nat
  second : Nat
deriving DecidableEq, Repr

/-- The place in a year from which a search goes on. -/
structure Place where
  month : Nat
  day : Nat
  clock : Clock
deriving DecidableEq, Repr

namespace Pattern

/-- The members of a unit's set to try, and whether the first of them is the starting part
itself, so that the smaller units go on from their starting parts. -/
def candidates (set : List Nat) (start : Nat) : List (Nat × Bool) :=
  (set.filter (start ≤ ·)).map fun n => (n, n == start)

/-- The first second of a minute's set. -/
def firstSecond? (p : Pattern) (start : Nat) : Option Nat :=
  p.seconds.find? (start ≤ ·)

/-- The first time of a day at or after a time. -/
def firstClock? (p : Pattern) (start : Clock) : Option Clock :=
  (candidates p.hours start.hour).findSome? fun (hour, same) =>
    (candidates p.minutes (if same then start.minute else 0)).findSome? fun (minute, same') =>
      (p.firstSecond? (if same && same' then start.second else 0)).map fun second =>
        ⟨hour, minute, second⟩

def midnight : Clock := ⟨0, 0, 0⟩

/-- The first match on a day at or after a time. -/
def firstOnDay? (p : Pattern) (year month day : Nat) (start : Clock) : Option Instant :=
  match Calendar.dayNumber? year month day with
  | none => none
  | some number =>
    if (Calendar.weekdayOf number).fromSunday ∈ p.daysOfWeek then
      match p.firstClock? start with
      | none => none
      | some c => Instant.at? number c.hour c.minute c.second 0
    else none

/-- The first match in a month at or after a day and time. A day beyond the month's end stands
for its last day, and its time then holds for that day if the set has the day asked for. -/
def firstInMonth? (p : Pattern) (year month : Nat) (day : Nat) (start : Clock) : Option Instant :=
  let length := Calendar.daysInMonth year month
  let start := if day ∈ p.daysOfMonth then start else midnight
  let first := min day length
  (p.daysOfMonth.filter fun d => first ≤ d && d ≤ length).zipIdx.findSome? fun (d, i) =>
    p.firstOnDay? year month d (if i = 0 then start else midnight)

/-- The first match in a year at or after a place in it. -/
def firstInYear? (p : Pattern) (year : Nat) (start : Place) : Option Instant :=
  (candidates p.months start.month).findSome? fun (month, same) =>
    if same then p.firstInMonth? year month start.day start.clock
    else p.firstInMonth? year month 1 midnight

/-- The place of an instant in its year. -/
def placeOf (t : Instant) : Place :=
  ⟨t.month, t.dayOfMonth, t.hour, t.minute, t.secondOfMinute⟩

def newYear : Place := ⟨1, 1, midnight⟩

/-- The first match later than an instant by a second or more, fractions cut off. -/
def next? (p : Pattern) (after : Instant) : Option Instant :=
  match after.addSeconds? 1 with
  | none => none
  | some start =>
    if start.year < 0 then none
    else
      (p.years.filter (start.year.toNat ≤ ·)).zipIdx.findSome? fun (year, i) =>
        p.firstInYear? year (if i = 0 then placeOf start else newYear)

/-- All matches after an instant, each searched from the one before. -/
def occurrences (p : Pattern) (after : Instant) : LazyList Instant :=
  match p.next? after with
  | none => .nil
  | some t => .cons t fun _ => if after.second < t.second then p.occurrences t else .nil
termination_by ((Calendar.lastDay + 1) * 86400 - after.second).toNat
decreasing_by
  have := t.lt_end
  omega

end Pattern

end Cron

end RunScheduler
