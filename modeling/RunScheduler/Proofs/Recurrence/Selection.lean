import Mathlib.Tactic.MkIffOfInductiveProp
import RunScheduler.Proofs.Recurrence.Expansion
import RunScheduler.Recurrence.Rule.Reader

/-!
# The instants that a rule selects

What a rule means does not mention its expansion: an instant is selected if its unit of time is a
whole number of periods from the start's, its parts are in the lists of the rule, and the parts
that no list and no period decides are the start's (`Selects`). The candidates of all periods, in
order, are exactly the selected instants from the start on (`candidates_select`).

Each frequency offers the instants of one unit that have the right parts (`mem_offers_iff`), some
of which the lists leave out (`mem_candidates_iff`). The calendar has the period of a selected
instant (`offers_isSome_iff`), with one exception: its last day is a Monday, and the one week that
begins on it is offered only to rules that name no other day of the week (`HasWeekdays`).
-/

namespace RunScheduler

namespace Rule

variable {r : Rule} {start t : Instant} {k : Nat} {l : List Instant}

/-! ### What is selected -/

/-- The parts of an instant that neither a list of the rule nor its period decides are those of
the start. -/
@[mk_iff] structure KeepsStart (r : Rule) (start t : Instant) : Prop where
  second : t.secondOfMinute = start.secondOfMinute
  nano : t.nano = 0
  minute : r.frequency ≠ .minutely → r.byMinute = [] → t.minute = start.minute
  hour : r.frequency ≠ .minutely → r.frequency ≠ .hourly → r.byHour = [] → t.hour = start.hour
  weekday : r.frequency = .weekly → r.byDay = [] → t.weekday = start.weekday
  dayOfMonth : r.frequency = .monthly → r.byMonthDay = [] → r.byDay = [] →
    t.dayOfMonth = start.dayOfMonth

/-- An instant that a rule begun at `start` selects, whether or not it is later. -/
structure Selects (r : Rule) (start t : Instant) : Prop extends r.KeepsStart start t where
  /-- It lies a whole number of periods from the start. -/
  period : (r.interval : Int) ∣ r.frequency.unitOf t - r.frequency.unitOf start
  weekday_mem : r.byDay ≠ [] → t.weekday ∈ r.byDay
  dayOfMonth_mem : r.byMonthDay ≠ [] → t.dayOfMonth ∈ r.byMonthDay
  hour_mem : r.byHour ≠ [] → t.hour ∈ r.byHour
  minute_mem : r.byMinute ≠ [] → t.minute ∈ r.byMinute

/-- The calendar has the days of the week of an instant that a weekly rule names. -/
def HasWeekdays (r : Rule) (start t : Instant) : Prop :=
  r.frequency = .weekly → ∀ w ∈ r.weekdays start, mondayOf t + w.index ≤ Calendar.lastDay

/-! ### The parts of what is offered -/

theorem allows_iff :
    r.allows t = true ↔ (r.byDay ≠ [] → t.weekday ∈ r.byDay) ∧
      (r.byMonthDay ≠ [] → t.dayOfMonth ∈ r.byMonthDay) ∧
      (r.byHour ≠ [] → t.hour ∈ r.byHour) ∧ (r.byMinute ≠ [] → t.minute ∈ r.byMinute) := by
  have hlist {α : Type} [BEq α] [LawfulBEq α] {l : List α} {a : α} :
      (l.isEmpty || l.contains a) = true ↔ (l ≠ [] → a ∈ l) := by
    cases l <;> simp
  unfold allows
  rw [Bool.and_eq_true, Bool.and_eq_true, Bool.and_eq_true, hlist, hlist, hlist, hlist, and_assoc,
    and_assoc]

theorem mem_orDefault_iff {l : List Nat} {n default : Nat} (h : l ≠ [] → n ∈ l) :
    n ∈ orDefault l default ↔ (l = [] → n = default) := by
  cases l with
  | nil => simp [orDefault]
  | cons m l => simpa [orDefault] using h

theorem mem_timesOn_iff {day : Int} (h : r.allows t = true) :
    t ∈ r.timesOn start day ↔ t.day = day ∧ t.secondOfMinute = start.secondOfMinute ∧
      t.nano = 0 ∧ (r.byMinute = [] → t.minute = start.minute) ∧
      (r.byHour = [] → t.hour = start.hour) := by
  obtain ⟨-, -, hhour, hminute⟩ := allows_iff.mp h
  rw [← mem_orDefault_iff hhour, ← mem_orDefault_iff hminute]
  unfold timesOn
  simp only [List.mem_flatMap, List.mem_filterMap, Instant.at?_eq_some_iff_parts]
  constructor
  · rintro ⟨hour, hhour, minute, hminute, hday, rfl, rfl, hsecond, hnano⟩
    exact ⟨hday, hsecond, hnano, hminute, hhour⟩
  · rintro ⟨hday, hsecond, hnano, hminute, hhour⟩
    exact ⟨t.hour, hhour, t.minute, hminute, hday, rfl, rfl, hsecond, hnano⟩

/-! ### What a period offers -/

theorem eq_shift_iff_of_minutely {u : Instant} {step : Nat} (hnano : start.nano = 0)
    (hu : start.addSeconds? (step * 60) = some u) :
    t = u ↔ t.second / 60 = start.second / 60 + step ∧
      t.secondOfMinute = start.secondOfMinute ∧ t.nano = 0 := by
  obtain ⟨hsecond, hunano⟩ := (Instant.addSeconds?_eq_some_iff (by omega)).mp hu
  unfold Instant.secondOfMinute Instant.secondOfDay
  constructor
  · rintro rfl
    omega
  · rintro ⟨hminute, hofMinute, htnano⟩
    apply Instant.ext <;> omega

theorem mem_hour_iff {u : Instant} {step : Nat} (hnano : start.nano = 0)
    (hu : start.addSeconds? (step * 3600) = some u)
    (hminutes : r.byMinute ≠ [] → t.minute ∈ r.byMinute) :
    (t ∈ if r.byMinute.isEmpty then [u] else r.byMinute.filterMap u.withMinute?) ↔
      t.second / 3600 = start.second / 3600 + step ∧
        t.secondOfMinute = start.secondOfMinute ∧ t.nano = 0 ∧
        (r.byMinute = [] → t.minute = start.minute) := by
  obtain ⟨hsecond, hunano⟩ := (Instant.addSeconds?_eq_some_iff (by omega)).mp hu
  have hhour : u.second / 3600 = start.second / 3600 + step := by omega
  have hminute : u.minute = start.minute := by
    unfold Instant.minute Instant.secondOfDay
    omega
  have hofMinute : u.secondOfMinute = start.secondOfMinute := by
    unfold Instant.secondOfMinute Instant.secondOfDay
    omega
  rw [← hhour, ← hminute, ← hofMinute, Instant.second_div_eq_iff]
  by_cases hnone : r.byMinute = []
  · simp only [hnone, List.isEmpty_nil, if_true, List.mem_singleton, forall_const]
    constructor
    · rintro rfl
      exact ⟨⟨rfl, rfl⟩, rfl, hunano.trans hnano, rfl⟩
    · rintro ⟨⟨hday, hhour⟩, hsecond, htnano, hminute⟩
      have hplace := t.second_eq_parts
      rw [hday, hhour, hminute, hsecond, ← u.second_eq_parts] at hplace
      exact Instant.ext hplace (htnano.trans (hunano.trans hnano).symm)
  · simp only [List.isEmpty_iff, hnone, if_false, List.mem_filterMap,
      Instant.withMinute?_eq_some_iff (hunano.trans hnano), false_imp_iff, and_true]
    constructor
    · rintro ⟨minute, -, hday, hhour, -, hsecond, htnano⟩
      exact ⟨⟨hday, hhour⟩, hsecond, htnano⟩
    · rintro ⟨⟨hday, hhour⟩, hsecond, htnano⟩
      exact ⟨t.minute, hminutes hnone, hday, hhour, rfl, hsecond, htnano⟩

theorem mem_weekdays_iff (h : r.byDay ≠ [] → t.weekday ∈ r.byDay) :
    t.weekday ∈ r.weekdays start ↔ (r.byDay = [] → t.weekday = start.weekday) := by
  unfold weekdays
  by_cases hnone : r.byDay = []
  · simp [hnone]
  · simpa [hnone] using h hnone

theorem day_eq_iff_of_week {step : Nat} {w : Weekday} :
    t.day = mondayOf start + step * 7 + w.index ↔
      (t.day + 3) / 7 = (start.day + 3) / 7 + step ∧ t.weekday = w := by
  have hw := w.index_lt
  have hindex := t.weekday_index
  rw [mondayOf_eq]
  constructor
  · intro hday
    exact ⟨by omega, Weekday.index_injective (by omega)⟩
  · rintro ⟨hweek, rfl⟩
    omega

theorem mem_week_iff {step : Nat} (hallows : r.allows t = true) :
    t ∈ (r.weekdays start).flatMap
        (fun w => r.timesOn start (mondayOf start + step * 7 + w.index)) ↔
      (t.day + 3) / 7 = (start.day + 3) / 7 + step ∧
        t.secondOfMinute = start.secondOfMinute ∧ t.nano = 0 ∧
        (r.byMinute = [] → t.minute = start.minute) ∧ (r.byHour = [] → t.hour = start.hour) ∧
        (r.byDay = [] → t.weekday = start.weekday) := by
  rw [← mem_weekdays_iff (allows_iff.mp hallows).1]
  simp only [List.mem_flatMap, mem_timesOn_iff hallows, day_eq_iff_of_week]
  constructor
  · rintro ⟨w, hw, ⟨hweek, rfl⟩, hsecond, hnano, hminute, hhour⟩
    exact ⟨hweek, hsecond, hnano, hminute, hhour, hw⟩
  · rintro ⟨hweek, hsecond, hnano, hminute, hhour, hw⟩
    exact ⟨t.weekday, hw, ⟨hweek, rfl⟩, hsecond, hnano, hminute, hhour⟩

theorem mem_monthDays_iff (h : r.byMonthDay ≠ [] → t.dayOfMonth ∈ r.byMonthDay) :
    t.dayOfMonth ∈ r.monthDays start ↔
      (r.byMonthDay = [] → r.byDay = [] → t.dayOfMonth = start.dayOfMonth) := by
  unfold monthDays
  by_cases hnone : r.byMonthDay = []
  · by_cases hdays : r.byDay = []
    · simp [hnone, hdays]
    · have hone := t.one_le_dayOfMonth
      have hlast := t.dayOfMonth_le_31
      simp [hnone, hdays]
      omega
  · simpa [hnone] using h hnone

theorem mem_month_iff {step : Nat} (hallows : r.allows t = true) :
    let months := start.year * 12 + (start.month - 1 : Nat) + step
    t ∈ (r.monthDays start).flatMap (fun day =>
        match Calendar.dayNumber? (months / 12) ((months % 12).toNat + 1) day with
        | none => []
        | some number => r.timesOn start number) ↔
      t.monthIndex = start.monthIndex + step ∧
        t.secondOfMinute = start.secondOfMinute ∧ t.nano = 0 ∧
        (r.byMinute = [] → t.minute = start.minute) ∧ (r.byHour = [] → t.hour = start.hour) ∧
        (r.byMonthDay = [] → r.byDay = [] → t.dayOfMonth = start.dayOfMonth) := by
  intro months
  have hmonths : start.monthIndex + step = months := rfl
  rw [← mem_monthDays_iff (allows_iff.mp hallows).2.1, hmonths, Instant.monthIndex_eq_int_iff,
    List.mem_flatMap]
  constructor
  · rintro ⟨day, hday, ht⟩
    split at ht
    · cases ht
    · rename_i number hnumber
      obtain ⟨rfl, hrest⟩ := (mem_timesOn_iff hallows).mp ht
      obtain ⟨hyear, hmonth, rfl⟩ := Instant.dayNumber?_eq_some_day_iff.mp hnumber
      obtain ⟨hsecond, hnano, hminute, hhour⟩ := hrest
      exact ⟨⟨hyear, hmonth⟩, hsecond, hnano, hminute, hhour, hday⟩
  · rintro ⟨⟨hyear, hmonth⟩, hsecond, hnano, hminute, hhour, hday⟩
    refine ⟨t.dayOfMonth, hday, ?_⟩
    rw [Instant.dayNumber?_eq_some_day_iff.mpr ⟨hyear, hmonth, rfl⟩]
    exact (mem_timesOn_iff hallows).mpr ⟨rfl, hsecond, hnano, hminute, hhour⟩

/-- Of what the lists allow, a period offers what lies in its unit and keeps to the start. -/
theorem mem_offers_iff (hnano : start.nano = 0) (h : r.offers start k = some l)
    (hallows : r.allows t = true) :
    t ∈ l ↔ r.frequency.unitOf t = r.frequency.unitOf start + (k * r.interval : Nat) ∧
      r.KeepsStart start t := by
  obtain ⟨hdays, hmonthDays, hhours, hminutes⟩ := allows_iff.mp hallows
  unfold offers at h
  generalize k * r.interval = step at h ⊢
  rw [keepsStart_iff]
  cases hf : r.frequency with
  | minutely =>
    simp only [hf] at h
    obtain ⟨u, hu, rfl⟩ := Option.map_eq_some_iff.mp h
    rw [List.mem_singleton, eq_shift_iff_of_minutely hnano hu]
    simp [Frequency.unitOf]
  | hourly =>
    simp only [hf] at h
    obtain ⟨u, hu, rfl⟩ := Option.map_eq_some_iff.mp h
    rw [mem_hour_iff hnano hu hminutes]
    simp [Frequency.unitOf]
  | daily =>
    simp only [hf] at h
    split_ifs at h
    cases h
    rw [mem_timesOn_iff hallows]
    simp [Frequency.unitOf]
  | weekly =>
    simp only [hf] at h
    split_ifs at h
    cases h
    rw [mem_week_iff hallows]
    simp [Frequency.unitOf]
  | monthly =>
    simp only [hf] at h
    split_ifs at h
    cases h
    refine (mem_month_iff hallows).trans ?_
    simp [Frequency.unitOf]

theorem mem_candidates_iff (hnano : start.nano = 0) (h : r.candidates start k = some l) :
    t ∈ l ↔ r.frequency.unitOf t = r.frequency.unitOf start + (k * r.interval : Nat) ∧
      r.KeepsStart start t ∧ r.allows t = true := by
  obtain ⟨offered, hoffers, rfl⟩ := Option.map_eq_some_iff.mp h
  rw [mem_ascending, List.mem_filter]
  constructor
  · rintro ⟨hmem, hallows⟩
    obtain ⟨hunit, hkeeps⟩ := (mem_offers_iff hnano hoffers hallows).mp hmem
    exact ⟨hunit, hkeeps, hallows⟩
  · rintro ⟨hunit, hkeeps, hallows⟩
    exact ⟨(mem_offers_iff hnano hoffers hallows).mpr ⟨hunit, hkeeps⟩, hallows⟩

/-! ### The end of the calendar -/

theorem offers_isSome_iff (hstart : Calendar.firstDay + 7 ≤ start.day)
    (hunit : r.frequency.unitOf t = r.frequency.unitOf start + (k * r.interval : Nat)) :
    (r.offers start k).isSome = true ↔ r.HasWeekdays start t := by
  have hday := t.day_bounds
  have hend := t.lt_end
  unfold offers HasWeekdays
  generalize k * r.interval = step at hunit ⊢
  cases hf : r.frequency with
  | minutely =>
    rw [hf] at hunit
    change t.second / 60 = start.second / 60 + step at hunit
    simp only [Option.isSome_map, reduceCtorEq, false_imp_iff, iff_true]
    rw [Instant.addSeconds?_isSome_iff (by omega)]
    omega
  | hourly =>
    rw [hf] at hunit
    change t.second / 3600 = start.second / 3600 + step at hunit
    simp only [Option.isSome_map, reduceCtorEq, false_imp_iff, iff_true]
    rw [Instant.addSeconds?_isSome_iff (by omega)]
    omega
  | daily =>
    rw [hf] at hunit
    change t.day = start.day + step at hunit
    simp only [Option.isSome_ite, reduceCtorEq, false_imp_iff, iff_true]
    rw [inCalendar_iff, ← hunit]
    exact hday
  | weekly =>
    rw [hf] at hunit
    change (t.day + 3) / 7 = (start.day + 3) / 7 + step at hunit
    have hmonday : mondayOf start + step * 7 = mondayOf t := by
      rw [mondayOf_eq, mondayOf_eq, hunit]
      omega
    simp only [Option.isSome_ite, Bool.and_eq_true, inCalendar_iff, List.all_eq_true,
      forall_const, hmonday]
    have hstartDay := start.day_bounds
    have hstartMonday := mondayOf_eq start
    have hweekMonday := mondayOf_eq t
    constructor
    · rintro ⟨-, hdays⟩ w hw
      exact (hdays w hw).2
    · intro hdays
      refine ⟨⟨by omega, by omega⟩, fun w hw => ⟨by omega, hdays w hw⟩⟩
  | monthly =>
    rw [hf] at hunit
    change t.monthIndex = start.monthIndex + step at hunit
    obtain ⟨hyear, hmonth⟩ := Instant.monthIndex_eq_int_iff.mp hunit
    change t.year = (start.year * 12 + (start.month - 1 : Nat) + step) / 12 at hyear
    change t.month = ((start.year * 12 + (start.month - 1 : Nat) + step) % 12).toNat + 1 at hmonth
    simp only [Option.isSome_ite, reduceCtorEq, false_imp_iff, iff_true]
    rw [← hyear, ← hmonth, Calendar.dayNumber?_one_isSome_iff t.month_bounds]
    exact Calendar.yearOf_bounds hday.1 hday.2

/-! ### All periods -/

theorem selects_iff : r.Selects start t ↔
    (r.interval : Int) ∣ r.frequency.unitOf t - r.frequency.unitOf start ∧
      r.KeepsStart start t ∧ r.allows t = true := by
  constructor
  · intro h
    exact ⟨h.period, h.toKeepsStart,
      allows_iff.mpr ⟨h.weekday_mem, h.dayOfMonth_mem, h.hour_mem, h.minute_mem⟩⟩
  · rintro ⟨hperiod, hkeeps, hallows⟩
    obtain ⟨hdays, hmonthDays, hhours, hminutes⟩ := allows_iff.mp hallows
    exact ⟨hkeeps, hperiod, hdays, hmonthDays, hhours, hminutes⟩

theorem exists_period_iff (hle : start ≤ t) :
    (∃ k : Nat, r.frequency.unitOf t = r.frequency.unitOf start + (k * r.interval : Nat)) ↔
      (r.interval : Int) ∣ r.frequency.unitOf t - r.frequency.unitOf start := by
  have hunits := r.frequency.unitOf_le hle
  constructor
  · rintro ⟨k, hk⟩
    refine ⟨k, ?_⟩
    rw [hk, Int.natCast_mul, Int.mul_comm]
    omega
  · intro hdvd
    obtain ⟨n, hn⟩ := Int.eq_ofNat_of_zero_le (Int.sub_nonneg_of_le hunits)
    rw [hn, Int.natCast_dvd_natCast] at hdvd
    obtain ⟨k, rfl⟩ := hdvd
    refine ⟨k, ?_⟩
    rw [Nat.mul_comm]
    omega

/-- **Expansion selects what the rule says.** The candidates of all periods that are not before
the start ascend, and they are the instants from the start on that the rule selects. Only of the
week that the end of the calendar cuts off does a rule have none if it names a day beyond. -/
theorem candidates_select (hnano : start.nano = 0)
    (hstart : Calendar.firstDay + 7 ≤ start.day) :
    ((r.unrolled start 0).filter (start ≤ ·)).Pairwise (· < ·) ∧
      ∀ t, t ∈ (r.unrolled start 0).filter (start ≤ ·) ↔
        start ≤ t ∧ r.Selects start t ∧ r.HasWeekdays start t := by
  refine ⟨(pairwise_unrolled r start 0).filter _, fun t => ?_⟩
  rw [List.mem_filter, decide_eq_true_eq, mem_unrolled_iff]
  constructor
  · rintro ⟨⟨k, l, -, hl, ht⟩, hle⟩
    obtain ⟨hunit, hkeeps, hallows⟩ := (mem_candidates_iff hnano hl).mp ht
    have hoffers : (r.offers start k).isSome = true := by
      rw [← Option.isSome_map, ← candidates, hl]
      rfl
    have hperiod := (exists_period_iff hle).mp ⟨k, hunit⟩
    exact ⟨hle, selects_iff.mpr ⟨hperiod, hkeeps, hallows⟩,
      (offers_isSome_iff hstart hunit).mp hoffers⟩
  · rintro ⟨hle, hselects, hweek⟩
    obtain ⟨hperiod, hkeeps, hallows⟩ := selects_iff.mp hselects
    obtain ⟨k, hunit⟩ := (exists_period_iff hle).mpr hperiod
    obtain ⟨offered, hoffers⟩ :=
      Option.isSome_iff_exists.mp ((offers_isSome_iff hstart hunit).mpr hweek)
    have hl : r.candidates start k = some (ascending (offered.filter r.allows)) := by
      rw [candidates, hoffers]
      rfl
    have ht := (mem_candidates_iff hnano hl).mpr ⟨hunit, hkeeps, hallows⟩
    exact ⟨⟨k, _, Nat.zero_le k, hl, ht⟩, hle⟩

/-- The month ends from January 2024 on. -/
theorem candidates_select_lastDays :
    (january.nano = 0 ∧ Calendar.firstDay + 7 ≤ january.day) ∧
      (october ∈ (lastDays.unrolled january 0).filter (january ≤ ·) ↔
        january ≤ october ∧ lastDays.Selects january october ∧
          lastDays.HasWeekdays january october) := by
  have hnano : january.nano = 0 := by decide
  have hstart : Calendar.firstDay + 7 ≤ january.day := by decide
  exact ⟨⟨hnano, hstart⟩, (candidates_select hnano hstart).2 october⟩

/-! ### The week that is cut off -/

/-- Every Monday and Tuesday. -/
def startsOfWeek : Rule where
  frequency := .weekly
  interval := 1
  count := none
  until? := none
  byDay := [.monday, .tuesday]
  byMonthDay := []
  byHour := []
  byMinute := []
  start? := none
  interval_pos := Nat.one_pos

/-- The last midnight of the calendar, on a Monday. -/
def lastMidnight : Instant := (Instant.at? Calendar.lastDay 0 0 0 0).getD .epoch

/-- Three weeks earlier. -/
def threeWeeksEarlier : Instant := (Instant.at? (Calendar.lastDay - 21) 0 0 0 0).getD .epoch

/-- The last Monday is missing if Tuesday is beyond the end of the calendar. -/
theorem not_candidates_select_lastMidnight :
    ¬ ∀ (text : List Char) (r : Rule) (start t : Instant), ofText text = .ok r →
      start.nano = 0 → Calendar.firstDay + 7 ≤ start.day → start.day + 7 ≤ Calendar.lastDay →
      (t ∈ (r.unrolled start 0).filter (start ≤ ·) ↔ start ≤ t ∧ r.Selects start t) := by
  intro h
  have hread : ofText "FREQ=WEEKLY;BYDAY=MO,TU".toList = .ok startsOfWeek := by decide
  have hlast := h _ startsOfWeek threeWeeksEarlier lastMidnight hread (by decide) (by decide)
    (by decide)
  have hselects : startsOfWeek.Selects threeWeeksEarlier lastMidnight := by
    rw [selects_iff, keepsStart_iff]
    decide
  have hmem := hlast.mpr ⟨by decide, hselects⟩
  rw [List.mem_filter] at hmem
  obtain ⟨k, l, -, hl, ht⟩ := mem_unrolled_iff.mp hmem.1
  have hunit := unitOf_of_mem_candidates hl ht
  have hthree : startsOfWeek.frequency.unitOf lastMidnight =
      startsOfWeek.frequency.unitOf threeWeeksEarlier + 3 := by decide
  obtain rfl : k = 3 := by
    rw [hthree] at hunit
    change _ = _ + ((k * 1 : Nat) : Int) at hunit
    omega
  have hnone : startsOfWeek.candidates threeWeeksEarlier 3 = none := by decide
  rw [hnone] at hl
  cases hl

end Rule

end RunScheduler
