import RunScheduler.Calendar

/-!
# Instants

A point of time on the UTC calendar: whole seconds since 1 January 1970 and nanoseconds in the
second. A leap second is the second after a second 59 and shares its number: its nanoseconds
are those from 10⁹ on. So instants are ordered by second, then nanosecond, and a leap second
lies after second 59 and before the next. Seconds stay inside the calendar, which is what it
means for an instant to be representable.

Main facts: the order is total, and adding whole seconds to an instant outside a leap second
moves its second by that number, or fails at the end of the calendar.
-/

namespace RunScheduler

/-- An instant of the calendar. -/
@[ext] structure Instant where
  /-- Seconds since the start of 1970, leap seconds not counted. -/
  second : Int
  /-- Nanoseconds in the second; 10⁹ and more are in the leap second after it. -/
  nano : Nat
  first_le : Calendar.firstDay * 86400 ≤ second
  lt_end : second < (Calendar.lastDay + 1) * 86400
  nano_lt : nano < 2000000000
  leap_at_59 : 1000000000 ≤ nano → second % 60 = 59

namespace Instant

instance : DecidableEq Instant := fun a b =>
  if h : a.second = b.second ∧ a.nano = b.nano then isTrue (Instant.ext h.1 h.2)
  else isFalse fun e => h (e ▸ ⟨rfl, rfl⟩)

/-- The instant at a second and nanosecond, if it is one. -/
def of? (second : Int) (nano : Nat) : Option Instant :=
  if h : Calendar.firstDay * 86400 ≤ second ∧ second < (Calendar.lastDay + 1) * 86400 ∧
      nano < 2000000000 ∧ (1000000000 ≤ nano → second % 60 = 59) then
    some ⟨second, nano, h.1, h.2.1, h.2.2.1, h.2.2.2⟩
  else none

/-- The start of 1970. -/
def epoch : Instant := ⟨0, 0, by decide, by decide, by decide, by decide⟩

/-- The last instant outside a leap second. -/
def last : Instant :=
  ⟨(Calendar.lastDay + 1) * 86400 - 1, 999999999, by decide, by decide, by decide, by decide⟩

instance : Inhabited Instant := ⟨epoch⟩

/-! ## Order -/

instance : LT Instant :=
  ⟨fun a b => a.second < b.second ∨ a.second = b.second ∧ a.nano < b.nano⟩

instance : LE Instant :=
  ⟨fun a b => a.second < b.second ∨ a.second = b.second ∧ a.nano ≤ b.nano⟩

theorem lt_def {a b : Instant} :
    a < b ↔ a.second < b.second ∨ a.second = b.second ∧ a.nano < b.nano := Iff.rfl

theorem le_def {a b : Instant} :
    a ≤ b ↔ a.second < b.second ∨ a.second = b.second ∧ a.nano ≤ b.nano := Iff.rfl

instance : DecidableLT Instant := fun a b =>
  inferInstanceAs (Decidable (a.second < b.second ∨ a.second = b.second ∧ a.nano < b.nano))

instance : DecidableLE Instant := fun a b =>
  inferInstanceAs (Decidable (a.second < b.second ∨ a.second = b.second ∧ a.nano ≤ b.nano))

instance : Min Instant := ⟨fun a b => if a ≤ b then a else b⟩

theorem not_lt {a b : Instant} : ¬ a < b ↔ b ≤ a := by
  rw [lt_def, le_def]; omega

theorem not_le {a b : Instant} : ¬ a ≤ b ↔ b < a := by
  rw [lt_def, le_def]; omega

theorem le_refl (a : Instant) : a ≤ a := by
  rw [le_def]; omega

theorem lt_irrefl (a : Instant) : ¬ a < a := by
  rw [lt_def]; omega

theorem lt_trans {a b c : Instant} : a < b → b < c → a < c := by
  rw [lt_def, lt_def, lt_def]; omega

theorem le_trans {a b c : Instant} : a ≤ b → b ≤ c → a ≤ c := by
  rw [le_def, le_def, le_def]; omega

theorem lt_of_lt_of_le {a b c : Instant} : a < b → b ≤ c → a < c := by
  rw [lt_def, le_def, lt_def]; omega

theorem lt_of_le_of_lt {a b c : Instant} : a ≤ b → b < c → a < c := by
  rw [lt_def, le_def, lt_def]; omega

theorem le_of_lt {a b : Instant} : a < b → a ≤ b := by
  rw [lt_def, le_def]; omega

theorem le_antisymm {a b : Instant} (h : a ≤ b) (h' : b ≤ a) : a = b := by
  rw [le_def] at h h'
  exact Instant.ext (by omega) (by omega)

/-! ## Parts -/

/-- Whether this is in a leap second. -/
def isLeap (t : Instant) : Bool := 1000000000 ≤ t.nano

def day (t : Instant) : Int := t.second / 86400

def secondOfDay (t : Instant) : Nat := (t.second % 86400).toNat

def year (t : Instant) : Int := Calendar.yearOf t.day

def month (t : Instant) : Nat := Calendar.monthOf t.day

def dayOfMonth (t : Instant) : Nat := Calendar.dayOfMonth t.day

def weekday (t : Instant) : Weekday := Calendar.weekdayOf t.day

def hour (t : Instant) : Nat := t.secondOfDay / 3600

def minute (t : Instant) : Nat := t.secondOfDay / 60 % 60

/-- The second of the minute, 59 in a leap second. -/
def secondOfMinute (t : Instant) : Nat := t.secondOfDay % 60

/-- The instant on a day of the calendar at a time of day. -/
def at? (day : Int) (hour minute second : Nat) (nano : Nat) : Option Instant :=
  if hour < 24 ∧ minute < 60 ∧ second < 60 then
    of? (day * 86400 + hour * 3600 + minute * 60 + second) nano
  else none

/-- The same instant at another minute of its hour. A leap second at the end of the calendar is
not reached so. -/
def withMinute? (t : Instant) (minute : Nat) : Option Instant :=
  (at? t.day t.hour minute t.secondOfMinute t.nano).filter (· ≤ last)

/-! ## Shifts and distances -/

/-- The instant so many seconds later. A leap second is left by a shift: forward it counts as
the second it shares its number with, backward as the second after that. -/
def addSeconds? (t : Instant) (seconds : Int) : Option Instant :=
  if t.nano < 1000000000 then of? (t.second + seconds) t.nano
  else if seconds = 0 then some t
  else if 0 < seconds then of? (t.second + seconds) (t.nano - 1000000000)
  else of? (t.second + 1 + seconds) (t.nano - 1000000000)

/-- The nanoseconds from `b` to `a`. A leap second that lies between the two times of day is
counted, on whichever day it fell. -/
def nanosSince (a b : Instant) : Int :=
  let between : Int :=
    if b.secondOfDay < a.secondOfDay ∧ b.isLeap then 1
    else if a.secondOfDay < b.secondOfDay ∧ a.isLeap then -1
    else 0
  (a.second - b.second + between) * 1000000000 + ((a.nano : Int) - b.nano)

/-- The whole milliseconds from `b` to `a`, cut toward zero. -/
def millisSince (a b : Instant) : Int :=
  (a.nanosSince b).tdiv 1000000

/-- The whole seconds from `b` to `a`, cut toward zero. -/
def secondsSince (a b : Instant) : Int :=
  (a.nanosSince b).tdiv 1000000000

/-! ## Small facts -/

theorem of?_eq_some {s : Int} {n : Nat} {t : Instant} (h : of? s n = some t) :
    t.second = s ∧ t.nano = n := by
  unfold of? at h
  split at h
  · simp only [Option.some.injEq] at h
    subst h
    exact ⟨rfl, rfl⟩
  · simp at h

theorem of?_self (t : Instant) : of? t.second t.nano = some t := by
  unfold of?
  rw [dif_pos ⟨t.first_le, t.lt_end, t.nano_lt, t.leap_at_59⟩]

theorem addSeconds?_second {t u : Instant} {n : Int} (h : t.addSeconds? n = some u) :
    t.second + n ≤ u.second ∧ u.second ≤ t.second + n + 1 := by
  unfold addSeconds? at h
  split at h
  · have := of?_eq_some h; omega
  · split at h
    · simp only [Option.some.injEq] at h; subst h; omega
    · split at h
      · have := of?_eq_some h; omega
      · have := of?_eq_some h; omega

/-- Outside leap seconds a shift by whole seconds keeps the nanoseconds. -/
theorem addSeconds?_eq_some_iff {t u : Instant} {n : Int} (ht : t.nano < 1000000000) :
    t.addSeconds? n = some u ↔ u.second = t.second + n ∧ u.nano = t.nano := by
  unfold addSeconds?
  rw [if_pos ht]
  constructor
  · exact of?_eq_some
  · intro ⟨h, h'⟩
    rw [← h, ← h', of?_self]

end Instant

end RunScheduler
