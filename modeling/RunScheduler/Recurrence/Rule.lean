import RunScheduler.Instant
import RunScheduler.LazyList

/-!
# Recurrence rules

A rule cuts time into periods of a frequency and an interval, counted from a start, gives each
period its candidates, and keeps of them those that its lists of days, hours and minutes allow.
Candidates before the start are dropped, `until` ends them, and `count` limits their number.

Expansion goes through the periods in order. It ends with the calendar, and it gives up after
more than `maxEmptyPeriods` periods in a row without a candidate. Main fact: no period beyond
`periodLimit` is in the calendar, so that expansion ends for every rule.
-/

namespace RunScheduler

inductive Frequency
  | minutely | hourly | daily | weekly | monthly
deriving DecidableEq, Repr

/-- A recurrence rule. An empty list allows everything. -/
structure Rule where
  frequency : Frequency
  /-- The number of units of the frequency in a period. -/
  interval : Nat
  count : Option Nat
  until? : Option Instant
  byDay : List Weekday
  byMonthDay : List Nat
  byHour : List Nat
  byMinute : List Nat
  /-- The start that the rule's own text gives. -/
  start? : Option Instant
  interval_pos : 0 < interval

namespace Rule

instance : DecidableEq Rule := fun a b =>
  if h : a.frequency = b.frequency ∧ a.interval = b.interval ∧ a.count = b.count ∧
      a.until? = b.until? ∧ a.byDay = b.byDay ∧ a.byMonthDay = b.byMonthDay ∧
      a.byHour = b.byHour ∧ a.byMinute = b.byMinute ∧ a.start? = b.start? then
    isTrue (by cases a; cases b; simp_all)
  else isFalse fun e => h (by subst e; simp)

/-! ## The candidates of a period -/

/-- Whether the lists allow an instant. -/
def allows (r : Rule) (t : Instant) : Bool :=
  (r.byDay.isEmpty || r.byDay.contains t.weekday) &&
    (r.byMonthDay.isEmpty || r.byMonthDay.contains t.dayOfMonth) &&
    (r.byHour.isEmpty || r.byHour.contains t.hour) &&
    (r.byMinute.isEmpty || r.byMinute.contains t.minute)

/-- The list, or the one value that stands for an absent list. -/
def orDefault (l : List Nat) (default : Nat) : List Nat :=
  if l.isEmpty then [default] else l

/-- The times of a day: the hours and minutes listed, or the start's, at the start's second. -/
def timesOn (r : Rule) (start : Instant) (day : Int) : List Instant :=
  (orDefault r.byHour start.hour).flatMap fun hour =>
    (orDefault r.byMinute start.minute).filterMap fun minute =>
      Instant.at? day hour minute start.secondOfMinute 0

/-- Whether a day is in the calendar. -/
def inCalendar (day : Int) : Bool :=
  Calendar.firstDay ≤ day && day ≤ Calendar.lastDay

/-- The first day of the week of an instant. -/
def mondayOf (t : Instant) : Int :=
  t.day - t.weekday.index

/-- The days that a weekly rule may run on. -/
def weekdays (r : Rule) (start : Instant) : List Weekday :=
  if r.byDay.isEmpty then [start.weekday] else r.byDay

/-- The days of the month that a monthly rule may run on. -/
def monthDays (r : Rule) (start : Instant) : List Nat :=
  if !r.byMonthDay.isEmpty then r.byMonthDay
  else if !r.byDay.isEmpty then List.range' 1 31
  else [start.dayOfMonth]

/-- The instants a period offers before the lists are applied; `none` where the calendar has no
such period. -/
def offers (r : Rule) (start : Instant) (period : Nat) : Option (List Instant) :=
  let step : Nat := period * r.interval
  match r.frequency with
  | .minutely => (start.addSeconds? (step * 60)).map fun t => [t]
  | .hourly =>
    (start.addSeconds? (step * 3600)).map fun t =>
      if r.byMinute.isEmpty then [t] else r.byMinute.filterMap t.withMinute?
  | .daily =>
    let day := start.day + step
    if inCalendar day then some (r.timesOn start day) else none
  | .weekly =>
    let monday := mondayOf start
    let week := monday + step * 7
    if inCalendar monday && inCalendar week &&
        (r.weekdays start).all fun w => inCalendar (week + w.index) then
      some ((r.weekdays start).flatMap fun w => r.timesOn start (week + w.index))
    else none
  | .monthly =>
    let months := start.year * 12 + (start.month - 1 : Nat) + step
    let year := months / 12
    let month := (months % 12).toNat + 1
    if (Calendar.dayNumber? year month 1).isSome then
      some ((r.monthDays start).flatMap fun day =>
        match Calendar.dayNumber? year month day with
        | none => []
        | some number => r.timesOn start number)
    else none

/-- Inserts an instant in an ascending list that keeps each only once. -/
def insertOnce (t : Instant) : List Instant → List Instant
  | [] => [t]
  | u :: l => if t < u then t :: u :: l else if t = u then u :: l else u :: insertOnce t l

/-- The same instants, ascending and each once. -/
def ascending (l : List Instant) : List Instant :=
  l.foldr insertOnce []

/-- The candidates of a period, ascending; `none` where the calendar has no such period. -/
def candidates (r : Rule) (start : Instant) (period : Nat) : Option (List Instant) :=
  (r.offers start period).map fun l => ascending (l.filter r.allows)

/-! ## The end of the calendar -/

/-- No start has so many periods before the end of the calendar. -/
def periodLimit : Nat := 600000000000

theorem le_period_mul (r : Rule) (k : Nat) : k ≤ k * r.interval :=
  Nat.le_mul_of_pos_right k r.interval_pos

theorem day_bounds (t : Instant) : Calendar.firstDay ≤ t.day ∧ t.day ≤ Calendar.lastDay := by
  have h₁ := t.first_le
  have h₂ := t.lt_end
  simp only [Calendar.firstDay, Calendar.lastDay, Instant.day] at *
  omega

theorem lt_limit_of_addSeconds? {t u : Instant} {n : Int} {k : Nat} (hn : 60 * (k : Int) ≤ n)
    (h : t.addSeconds? n = some u) : k < periodLimit := by
  have h₁ := (Instant.addSeconds?_second h).1
  have h₂ := t.first_le
  have h₃ := u.lt_end
  simp only [Calendar.firstDay, Calendar.lastDay, periodLimit] at *
  omega

theorem lt_limit_of_inCalendar {day : Int} {k : Nat} (hk : Calendar.firstDay - 7 + k ≤ day)
    (h : inCalendar day = true) : k < periodLimit := by
  unfold inCalendar at h
  rw [Bool.and_eq_true, decide_eq_true_eq, decide_eq_true_eq] at h
  simp only [Calendar.firstDay, Calendar.lastDay, periodLimit] at *
  omega

theorem lt_limit_of_dayNumber? {year start : Int} {month k : Nat} (hs : -262200 ≤ start)
    (hk : start * 12 + k ≤ year * 12 + 11) (h : (Calendar.dayNumber? year month 1).isSome = true) :
    k < periodLimit := by
  unfold Calendar.dayNumber? at h
  split at h
  · rename_i hd
    simp only [Calendar.hasDay, Bool.and_eq_true, decide_eq_true_eq] at hd
    simp only [periodLimit]
    omega
  · simp at h

/-- The years of instants are bounded below. -/
theorem least_year_le (t : Instant) : -262200 ≤ t.year := by
  have h := (day_bounds t).1
  unfold Instant.year Calendar.yearOf
  simp only [Calendar.firstDay] at h
  dsimp only
  split
  · simp only [Calendar.epochOffset]; omega
  · split <;> (simp only [Calendar.epochOffset]; omega)

theorem lt_periodLimit_of_offers {r : Rule} {start : Instant} {k : Nat} {l : List Instant}
    (h : r.offers start k = some l) : k < periodLimit := by
  have hk := le_period_mul r k
  have hd := (day_bounds start).1
  unfold offers at h
  generalize k * r.interval = step at hk h
  cases hf : r.frequency <;> simp only [hf] at h
  · obtain ⟨u, hu, -⟩ := Option.map_eq_some_iff.1 h
    exact lt_limit_of_addSeconds? (by omega) hu
  · obtain ⟨u, hu, -⟩ := Option.map_eq_some_iff.1 h
    exact lt_limit_of_addSeconds? (by omega) hu
  · split at h
    · rename_i hc
      exact lt_limit_of_inCalendar (by omega) hc
    · simp at h
  · split at h
    · rename_i hc
      rw [Bool.and_eq_true, Bool.and_eq_true] at hc
      have hw := start.weekday.index_lt
      refine lt_limit_of_inCalendar ?_ hc.1.2
      unfold mondayOf
      omega
    · simp at h
  · split at h
    · rename_i hc
      exact lt_limit_of_dayNumber? (least_year_le start) (by omega) hc
    · simp at h

theorem lt_periodLimit {r : Rule} {start : Instant} {k : Nat} {l : List Instant}
    (h : r.candidates start k = some l) : k < periodLimit := by
  obtain ⟨_, hl, -⟩ := Option.map_eq_some_iff.1 h
  exact lt_periodLimit_of_offers hl

/-! ## Expansion -/

/-- The most periods in a row without a candidate that expansion goes through. -/
def maxEmptyPeriods : Nat := 100000

/-- The candidates of the periods from `period` on, after `empty` periods without one. -/
def expand (r : Rule) (start : Instant) (period empty : Nat) : LazyList Instant :=
  match _h : r.candidates start period with
  | none => .nil
  | some [] =>
    if maxEmptyPeriods ≤ empty then .nil else r.expand start (period + 1) (empty + 1)
  | some (t :: l) => .prepend (t :: l) fun _ => r.expand start (period + 1) 0
termination_by periodLimit - period
decreasing_by
  all_goals
    have := lt_periodLimit _h
    omega

/-- The length of a period of one unit, except that of a month, in seconds. -/
def Frequency.seconds : Frequency → Nat
  | .minutely => 60
  | .hourly => 3600
  | .daily => 86400
  | .weekly => 604800
  | .monthly => 2419200

/-- The units of the frequency that surely lie between the start and a later instant. -/
def unitsBetween (r : Rule) (start after : Instant) : Nat :=
  match r.frequency with
  | .monthly =>
    ((after.year - start.year) * 12 + ((after.month : Int) - start.month)).toNat
  | f => ((after.secondsSince start).tdiv (Frequency.seconds f)).toNat

/-- The number of periods that end before `after`, from which expansion may begin. A rule with a
count begins at the start, since its candidates are counted from there. -/
def skipped (r : Rule) (start after : Instant) : Nat :=
  if r.count.isSome ∨ after ≤ start then 0
  else r.unitsBetween start after / r.interval - 1

/-- Whether an instant is not later than the rule's last. -/
def notPast (r : Rule) (t : Instant) : Bool :=
  match r.until? with
  | none => true
  | some last => decide (t ≤ last)

/-- At most as many as the rule's count. -/
def limit (r : Rule) (s : LazyList Instant) : LazyList Instant :=
  match r.count with
  | none => s
  | some n => s.take n

/-- The occurrences later than `after` of the rule begun at `start`. -/
def occurrences (r : Rule) (start after : Instant) : LazyList Instant :=
  (r.limit (((r.expand start (r.skipped start after) 0).filter (start ≤ ·)).takeWhile
    r.notPast)).filter (after < ·)

end Rule

end RunScheduler
