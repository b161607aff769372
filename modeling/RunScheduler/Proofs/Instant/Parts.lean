import RunScheduler.Instant
import RunScheduler.Proofs.Calendar

/-!
# The parts of an instant

An instant's second is that of its day, hour, minute and second of the minute (`second_eq_parts`),
and an instant built of a day and a time of day has these parts (`at?_eq_some_iff`,
`parts_of_at?`). Days, months and years never go back as instants go on (`day_le`, `year_le`,
`monthIndex_le`, `month_le`, `dayOfMonth_le`).
-/

namespace RunScheduler.Instant

variable {t u : Instant}

theorem second_eq_parts (t : Instant) :
    t.second = t.day * 86400 + t.hour * 3600 + t.minute * 60 + t.secondOfMinute := by
  unfold day hour minute secondOfMinute secondOfDay
  omega

theorem hour_lt (t : Instant) : t.hour < 24 := by
  unfold hour secondOfDay
  omega

theorem minute_lt (t : Instant) : t.minute < 60 := by
  unfold minute
  omega

theorem secondOfMinute_lt (t : Instant) : t.secondOfMinute < 60 := by
  unfold secondOfMinute
  omega

theorem day_bounds (t : Instant) : Calendar.firstDay ≤ t.day ∧ t.day ≤ Calendar.lastDay := by
  have hfirst := t.first_le
  have hend := t.lt_end
  unfold day
  omega

theorem second_div_eq_iff {u : Instant} :
    t.second / 3600 = u.second / 3600 ↔ t.day = u.day ∧ t.hour = u.hour := by
  unfold day hour secondOfDay
  omega

/-! ### Instants from a day and a time of day -/

theorem of?_eq_some_iff {s : Int} {n : Nat} :
    of? s n = some t ↔ t.second = s ∧ t.nano = n := by
  constructor
  · exact of?_eq_some
  · rintro ⟨rfl, rfl⟩
    exact of?_self t

theorem of?_isSome_iff {s : Int} {n : Nat} :
    (of? s n).isSome = true ↔
      (Calendar.firstDay * 86400 ≤ s ∧ s < (Calendar.lastDay + 1) * 86400) ∧
        n < 2000000000 ∧ (1000000000 ≤ n → s % 60 = 59) := by
  unfold of?
  split_ifs with h
  · exact iff_of_true rfl ⟨⟨h.1, h.2.1⟩, h.2.2⟩
  · exact iff_of_false Bool.false_ne_true fun hall => h ⟨hall.1.1, hall.1.2, hall.2⟩

theorem at?_eq_some_iff {d : Int} {h m s n : Nat} :
    at? d h m s n = some t ↔ (h < 24 ∧ m < 60 ∧ s < 60) ∧
      t.second = d * 86400 + h * 3600 + m * 60 + s ∧ t.nano = n := by
  unfold at?
  split_ifs with hclock
  · rw [of?_eq_some_iff]
    exact (and_iff_right hclock).symm
  · exact iff_of_false (fun heq => nomatch heq) fun heq => hclock heq.1

theorem parts_of_at? {d : Int} {h m s n : Nat} (hat : at? d h m s n = some t) :
    t.day = d ∧ t.hour = h ∧ t.minute = m ∧ t.secondOfMinute = s := by
  obtain ⟨⟨hh, hm, hs⟩, hsecond, -⟩ := at?_eq_some_iff.mp hat
  unfold day hour minute secondOfMinute secondOfDay
  rw [hsecond]
  omega

theorem at?_eq_some_iff_parts {d : Int} {h m s n : Nat} :
    at? d h m s n = some t ↔
      t.day = d ∧ t.hour = h ∧ t.minute = m ∧ t.secondOfMinute = s ∧ t.nano = n := by
  constructor
  · intro hat
    obtain ⟨hday, hhour, hminute, hsecond⟩ := parts_of_at? hat
    exact ⟨hday, hhour, hminute, hsecond, (at?_eq_some_iff.mp hat).2.2⟩
  · rintro ⟨rfl, rfl, rfl, rfl, rfl⟩
    rw [at?_eq_some_iff]
    exact ⟨⟨t.hour_lt, t.minute_lt, t.secondOfMinute_lt⟩, t.second_eq_parts, rfl⟩

theorem withMinute?_eq_some_iff {u : Instant} {minute : Nat} (hu : u.nano = 0) :
    u.withMinute? minute = some t ↔ t.day = u.day ∧ t.hour = u.hour ∧ t.minute = minute ∧
      t.secondOfMinute = u.secondOfMinute ∧ t.nano = 0 := by
  unfold withMinute?
  rw [Option.filter_eq_some_iff, at?_eq_some_iff_parts, hu, decide_eq_true_eq]
  refine and_iff_left_of_imp ?_
  rintro ⟨-, -, -, -, hnano⟩
  have hend := t.lt_end
  rw [le_def]
  show t.second < (Calendar.lastDay + 1) * 86400 - 1 ∨
    t.second = (Calendar.lastDay + 1) * 86400 - 1 ∧ t.nano ≤ 999999999
  omega

theorem exists_at? {d : Int} {h m s : Nat} (hd : Calendar.firstDay ≤ d ∧ d ≤ Calendar.lastDay)
    (hclock : h < 24 ∧ m < 60 ∧ s < 60) : ∃ t, at? d h m s 0 = some t := by
  rw [← Option.isSome_iff_exists, at?, if_pos hclock, of?_isSome_iff]
  omega

/-! ### The date -/

theorem date_eq_of_day_eq (h : t.day = u.day) :
    t.year = u.year ∧ t.month = u.month ∧ t.dayOfMonth = u.dayOfMonth := by
  unfold year month dayOfMonth
  rw [h]
  exact ⟨rfl, rfl, rfl⟩

theorem dayNumber?_parts (t : Instant) :
    Calendar.dayNumber? t.year t.month t.dayOfMonth = some t.day :=
  Calendar.dayNumber?_eq_some_iff.mpr
    ⟨Calendar.yearOf_bounds t.day_bounds.1 t.day_bounds.2, Calendar.isDate_parts t.day,
      (Calendar.dayNumber_parts t.day).symm⟩

theorem one_le_dayOfMonth (t : Instant) : 1 ≤ t.dayOfMonth :=
  (Calendar.isDate_parts t.day).one_le_day

theorem month_bounds (t : Instant) : 1 ≤ t.month ∧ t.month ≤ 12 :=
  (Calendar.isDate_parts t.day).month_bounds

theorem dayOfMonth_le_31 (t : Instant) : t.dayOfMonth ≤ 31 := by
  refine Nat.le_trans (Calendar.isDate_parts t.day).day_le ?_
  unfold Calendar.daysInMonth
  split <;> (try split_ifs) <;> decide

theorem weekday_index (t : Instant) : (t.weekday.index : Int) = (t.day + 3) % 7 := by
  unfold weekday Calendar.weekdayOf
  rw [Weekday.index_ofIndex]
  omega

/-- Months in a row, through all years. -/
def monthIndex (t : Instant) : Int :=
  Calendar.monthIndex t.year t.month

theorem monthIndex_eq_iff :
    t.monthIndex = u.monthIndex ↔ t.year = u.year ∧ t.month = u.month := by
  constructor
  · exact Calendar.monthIndex_inj t.month_bounds u.month_bounds
  · rintro ⟨hyear, hmonth⟩
    unfold monthIndex
    rw [hyear, hmonth]

theorem monthIndex_eq_int_iff {n : Int} :
    t.monthIndex = n ↔ t.year = n / 12 ∧ t.month = (n % 12).toNat + 1 := by
  have hmonth := t.month_bounds
  unfold monthIndex Calendar.monthIndex
  omega

theorem day_eq_iff :
    t.day = u.day ↔ t.monthIndex = u.monthIndex ∧ t.dayOfMonth = u.dayOfMonth := by
  constructor
  · intro h
    obtain ⟨hyear, hmonth, hday⟩ := date_eq_of_day_eq h
    exact ⟨monthIndex_eq_iff.mpr ⟨hyear, hmonth⟩, hday⟩
  · rintro ⟨hmonth, hday⟩
    obtain ⟨hyear, hmonth⟩ := monthIndex_eq_iff.mp hmonth
    have hsome := t.dayNumber?_parts
    rw [hyear, hmonth, hday, dayNumber?_parts, Option.some.injEq] at hsome
    exact hsome.symm

theorem date_of_day_eq {y : Int} {m d : Nat} (hdate : Calendar.IsDate y m d)
    (h : t.day = Calendar.dayNumber y m d) : t.year = y ∧ t.month = m ∧ t.dayOfMonth = d := by
  unfold year month dayOfMonth
  rw [h]
  exact Calendar.parts_dayNumber hdate

theorem dayNumber?_eq_some_day_iff {y : Int} {m d : Nat} :
    Calendar.dayNumber? y m d = some t.day ↔ t.year = y ∧ t.month = m ∧ t.dayOfMonth = d := by
  constructor
  · intro h
    obtain ⟨-, hdate, hday⟩ := Calendar.dayNumber?_eq_some_iff.mp h
    exact date_of_day_eq hdate hday
  · rintro ⟨rfl, rfl, rfl⟩
    exact t.dayNumber?_parts

/-! ### The order of parts -/

theorem second_le (h : t ≤ u) : t.second ≤ u.second := by
  rw [le_def] at h
  omega

theorem day_le (h : t.second ≤ u.second) : t.day ≤ u.day := by
  unfold day
  omega

theorem year_le (h : t.second ≤ u.second) : t.year ≤ u.year :=
  Calendar.yearOf_le (day_le h)

theorem monthIndex_le (h : t.second ≤ u.second) : t.monthIndex ≤ u.monthIndex :=
  Calendar.monthIndexOf_le (day_le h)

theorem dayOfMonth_le (hmonth : t.monthIndex = u.monthIndex) (h : t.second ≤ u.second) :
    t.dayOfMonth ≤ u.dayOfMonth := by
  obtain ⟨hyear, hmonth⟩ := monthIndex_eq_iff.mp hmonth
  have hdays := day_le h
  by_contra hlt
  have hlater := Calendar.dayNumber_lt_of_day_lt (y := t.year) (m := t.month) (Nat.not_le.mp hlt)
  have ht : Calendar.dayNumber t.year t.month t.dayOfMonth = t.day :=
    Calendar.dayNumber_parts t.day
  have hu : Calendar.dayNumber u.year u.month u.dayOfMonth = u.day :=
    Calendar.dayNumber_parts u.day
  rw [ht, hyear, hmonth, hu] at hlater
  omega

theorem month_le (hyear : t.year = u.year) (h : t.second ≤ u.second) : t.month ≤ u.month := by
  have hindex := monthIndex_le h
  have hmonth := u.month_bounds
  unfold monthIndex Calendar.monthIndex at hindex
  omega

theorem second_lt_of_dayOfMonth_lt (hmonth : t.monthIndex = u.monthIndex)
    (h : t.dayOfMonth < u.dayOfMonth) : t.second < u.second := by
  by_contra hle
  exact Nat.not_le.mpr h (dayOfMonth_le hmonth.symm (Int.not_lt.mp hle))

theorem day_le_of_dayOfMonth_le (hmonth : t.monthIndex = u.monthIndex)
    (h : t.dayOfMonth ≤ u.dayOfMonth) : t.day ≤ u.day := by
  rcases Nat.lt_or_eq_of_le h with hlt | heq
  · exact day_le (Int.le_of_lt (second_lt_of_dayOfMonth_lt hmonth hlt))
  · exact Int.le_of_eq (day_eq_iff.mpr ⟨hmonth, heq⟩)

theorem second_lt_of_month_lt (hyear : t.year = u.year) (h : t.month < u.month) :
    t.second < u.second := by
  by_contra hle
  exact Nat.not_le.mpr h (month_le hyear.symm (Int.not_lt.mp hle))

theorem second_lt_of_year_lt (h : t.year < u.year) : t.second < u.second := by
  by_contra hle
  exact Int.not_le.mpr h (year_le (Int.not_lt.mp hle))

/-! ### Shifts and distances -/

theorem addSeconds?_zero (t : Instant) : t.addSeconds? 0 = some t := by
  unfold addSeconds?
  rw [if_pos rfl, Int.add_zero, of?_self]
  exact ite_self (some t)

theorem second_of_addSeconds? {n : Int} (h : t.addSeconds? n = some u) (hn : 0 ≤ n) :
    u.second = t.second + n := by
  unfold addSeconds? at h
  split_ifs at h with hplain hzero hpos
  · exact (of?_eq_some h).1
  · cases h
    omega
  · exact (of?_eq_some h).1
  · omega

theorem lt_of_addSeconds?_neg {n : Int} (h : t.addSeconds? n = some u) (hn : n < 0) : u < t := by
  rw [lt_def]
  unfold addSeconds? at h
  split_ifs at h with hplain hzero hpos
  · obtain ⟨hsecond, -⟩ := of?_eq_some h
    omega
  · omega
  · omega
  · obtain ⟨hsecond, hnano⟩ := of?_eq_some h
    omega

theorem addSeconds?_isSome_iff {n : Int} (h : 0 ≤ n) :
    (t.addSeconds? n).isSome = true ↔ t.second + n < (Calendar.lastDay + 1) * 86400 := by
  have hfirst := t.first_le
  have hend := t.lt_end
  have hnano := t.nano_lt
  unfold addSeconds?
  split_ifs with hplain hzero hpos
  · rw [of?_isSome_iff]
    omega
  · exact iff_of_true rfl (by omega)
  · rw [of?_isSome_iff]
    omega
  · omega

/-- Leap seconds make the distance of two instants at most two seconds longer than that of their
seconds. -/
theorem secondsSince_le (h : u ≤ t) : t.secondsSince u ≤ t.second - u.second + 2 := by
  have hsecond := second_le h
  have hnano := t.nano_lt
  have hle : t.nanosSince u ≤ (t.second - u.second + 2) * 1000000000 + 999999999 := by
    unfold nanosSince
    dsimp only
    split_ifs <;> omega
  calc t.secondsSince u
      ≤ ((t.second - u.second + 2) * 1000000000 + 999999999).tdiv 1000000000 :=
        Int.tdiv_le_tdiv (by decide) hle
    _ = ((t.second - u.second + 2) * 1000000000 + 999999999) / 1000000000 :=
        Int.tdiv_eq_ediv_of_nonneg (by omega)
    _ ≤ t.second - u.second + 2 := by omega

end RunScheduler.Instant
