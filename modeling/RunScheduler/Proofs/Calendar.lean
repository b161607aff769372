import Mathlib.Data.Nat.Init
import Mathlib.Tactic.ByContra
import Mathlib.Tactic.SplitIfs
import RunScheduler.Calendar

/-!
# Days and their dates

A day is the one that its year, month and day of the month name (`dayNumber_parts`), and a date
that exists is the one of the day with its number (`parts_dayNumber`). Days of a later month are
later (`dayNumber_lt_of_monthIndex_lt`), so years and months never go back as days go on
(`monthIndexOf_le`).
-/

namespace RunScheduler.Calendar

/-! ### Years -/

theorem daysBeforeYear_yearOf_le (day : Int) : daysBeforeYear (yearOf day) ≤ day + epochOffset := by
  simp only [yearOf]
  split_ifs with hbefore hafter
  · simp only [daysBeforeYear] at hbefore ⊢
    omega
  · exact hafter
  · exact Int.not_lt.mp hbefore

theorem lt_daysBeforeYear_yearOf_add_one (day : Int) :
    day + epochOffset < daysBeforeYear (yearOf day + 1) := by
  simp only [yearOf]
  split_ifs with hbefore hafter
  · rw [Int.sub_add_cancel]
    exact hbefore
  · simp only [daysBeforeYear] at hafter ⊢
    omega
  · exact Int.not_le.mp hafter

theorem daysBeforeYear_le {y z : Int} (h : y ≤ z) : daysBeforeYear y ≤ daysBeforeYear z := by
  unfold daysBeforeYear
  omega

/-! ### Months -/

theorem daysBeforeMonth_le (year : Int) {m n : Nat} (h : m ≤ n) :
    daysBeforeMonth year m ≤ daysBeforeMonth year n := by
  induction h with
  | refl => exact Nat.le_refl _
  | step _ ih => exact Nat.le_trans ih (Nat.le_add_right _ _)

theorem daysBeforeMonth_thirteen (year : Int) : daysBeforeMonth year 13 = yearLength year := by
  simp only [daysBeforeMonth, daysInMonth, yearLength]
  split_ifs <;> rfl

theorem daysBeforeMonth_monthAt_le (year : Int) (place month : Nat) :
    daysBeforeMonth year (monthAt year place month) ≤ place := by
  induction month with
  | zero => exact Nat.zero_le _
  | succ month ih =>
    cases month with
    | zero => exact Nat.zero_le _
    | succ month =>
      simp only [monthAt]
      split_ifs with hbegins
      · exact hbegins
      · exact ih

theorem lt_daysBeforeMonth_monthAt_add_one (year : Int) {place month : Nat}
    (h : place < daysBeforeMonth year (month + 1)) :
    place < daysBeforeMonth year (monthAt year place month + 1) := by
  induction month with
  | zero => exact Nat.lt_of_lt_of_le h (daysBeforeMonth_le year (by decide : 1 ≤ 2))
  | succ month ih =>
    cases month with
    | zero => exact h
    | succ month =>
      simp only [monthAt]
      split_ifs with hbegins
      · exact h
      · exact ih (Nat.not_le.mp hbegins)

/-! ### Dates -/

/-- A month has such a day. -/
structure IsDate (year : Int) (month day : Nat) : Prop where
  one_le_day : 1 ≤ day
  day_le : day ≤ daysInMonth year month

theorem IsDate.month_bounds {year : Int} {month day : Nat} (h : IsDate year month day) :
    1 ≤ month ∧ month ≤ 12 := by
  have hpos : daysInMonth year month ≠ 0 := by
    have := h.one_le_day
    have := h.day_le
    omega
  unfold daysInMonth at hpos
  split at hpos
  any_goals omega

theorem IsDate.add_day_le {year : Int} {month day : Nat} (h : IsDate year month day) {n : Nat}
    (hlt : month < n) : daysBeforeMonth year month + day ≤ daysBeforeMonth year n := by
  have hnext : daysBeforeMonth year (month + 1) =
      daysBeforeMonth year month + daysInMonth year month := rfl
  have hday := h.day_le
  have hle : daysBeforeMonth year (month + 1) ≤ daysBeforeMonth year n :=
    daysBeforeMonth_le year hlt
  omega

theorem dayOfYear_add_daysBeforeYear (day : Int) :
    (dayOfYear day : Int) = day + epochOffset - daysBeforeYear (yearOf day) := by
  have hyear := daysBeforeYear_yearOf_le day
  exact Int.toNat_of_nonneg (by omega)

theorem dayOfYear_lt (day : Int) : dayOfYear day < yearLength (yearOf day) := by
  have hplace := dayOfYear_add_daysBeforeYear day
  have hnext := lt_daysBeforeYear_yearOf_add_one day
  rw [daysBeforeYear_succ] at hnext
  omega

/-- A day is the one that its year, month and day of the month name. -/
theorem dayNumber_parts (day : Int) :
    dayNumber (yearOf day) (monthOf day) (dayOfMonth day) = day := by
  have hmonth : daysBeforeMonth (yearOf day) (monthOf day) ≤ dayOfYear day :=
    daysBeforeMonth_monthAt_le _ _ _
  have hplace := dayOfYear_add_daysBeforeYear day
  rw [dayNumber, dayOfMonth]
  omega

theorem isDate_parts (day : Int) : IsDate (yearOf day) (monthOf day) (dayOfMonth day) := by
  have hlow : daysBeforeMonth (yearOf day) (monthOf day) ≤ dayOfYear day :=
    daysBeforeMonth_monthAt_le _ _ _
  have hhigh : dayOfYear day < daysBeforeMonth (yearOf day) (monthOf day + 1) := by
    refine lt_daysBeforeMonth_monthAt_add_one _ ?_
    rw [daysBeforeMonth_thirteen]
    exact dayOfYear_lt day
  have hnext : daysBeforeMonth (yearOf day) (monthOf day + 1) =
      daysBeforeMonth (yearOf day) (monthOf day) + daysInMonth (yearOf day) (monthOf day) := rfl
  constructor
  · exact Nat.le_add_left _ _
  · rw [dayOfMonth]
    omega

/-! ### The order of dates -/

/-- Months in a row, through all years. -/
def monthIndex (year : Int) (month : Nat) : Int :=
  year * 12 + (month - 1 : Nat)

theorem dayNumber_lt_of_monthIndex_lt {y y' : Int} {m m' d d' : Nat} (h : IsDate y m d)
    (h' : IsDate y' m' d') (hlt : monthIndex y m < monthIndex y' m') :
    dayNumber y m d < dayNumber y' m' d' := by
  have hm := h.month_bounds
  have hm' := h'.month_bounds
  have hd' := h'.one_le_day
  unfold monthIndex at hlt
  unfold dayNumber
  by_cases hyear : y = y'
  · subst hyear
    have hmonth : daysBeforeMonth y m + d ≤ daysBeforeMonth y m' := h.add_day_le (by omega)
    omega
  · have hmonth : daysBeforeMonth y m + d ≤ yearLength y := by
      rw [← daysBeforeMonth_thirteen]
      exact h.add_day_le (by omega)
    have hnext : daysBeforeYear y + yearLength y ≤ daysBeforeYear y' := by
      rw [← daysBeforeYear_succ]
      exact daysBeforeYear_le (by omega)
    omega

theorem dayNumber_lt_of_day_lt {y : Int} {m d d' : Nat} (h : d < d') :
    dayNumber y m d < dayNumber y m d' := by
  unfold dayNumber
  omega

theorem monthIndex_inj {y y' : Int} {m m' : Nat} (hm : 1 ≤ m ∧ m ≤ 12) (hm' : 1 ≤ m' ∧ m' ≤ 12)
    (h : monthIndex y m = monthIndex y' m') : y = y' ∧ m = m' := by
  unfold monthIndex at h
  omega

theorem parts_dayNumber {y : Int} {m d : Nat} (h : IsDate y m d) :
    yearOf (dayNumber y m d) = y ∧ monthOf (dayNumber y m d) = m ∧
      dayOfMonth (dayNumber y m d) = d := by
  have hparts := dayNumber_parts (dayNumber y m d)
  have hdate := isDate_parts (dayNumber y m d)
  generalize yearOf (dayNumber y m d) = y' at hparts hdate ⊢
  generalize monthOf (dayNumber y m d) = m' at hparts hdate ⊢
  generalize dayOfMonth (dayNumber y m d) = d' at hparts hdate ⊢
  have hindex : monthIndex y' m' = monthIndex y m := by
    rcases Int.lt_trichotomy (monthIndex y' m') (monthIndex y m) with hlt | heq | hlt
    · have := dayNumber_lt_of_monthIndex_lt hdate h hlt
      omega
    · exact heq
    · have := dayNumber_lt_of_monthIndex_lt h hdate hlt
      omega
  obtain ⟨rfl, rfl⟩ := monthIndex_inj hdate.month_bounds h.month_bounds hindex
  refine ⟨rfl, rfl, ?_⟩
  unfold dayNumber at hparts
  omega

theorem monthIndexOf_le {day day' : Int} (h : day ≤ day') :
    monthIndex (yearOf day) (monthOf day) ≤ monthIndex (yearOf day') (monthOf day') := by
  by_contra hlt
  have hdays := dayNumber_lt_of_monthIndex_lt (isDate_parts day') (isDate_parts day)
    (Int.not_le.mp hlt)
  rw [dayNumber_parts, dayNumber_parts] at hdays
  omega

theorem yearOf_le {day day' : Int} (h : day ≤ day') : yearOf day ≤ yearOf day' := by
  have hindex := monthIndexOf_le h
  have hm := (isDate_parts day).month_bounds
  have hm' := (isDate_parts day').month_bounds
  unfold monthIndex at hindex
  omega

/-! ### The calendar's ends -/

theorem yearOf_bounds {day : Int} (hfirst : firstDay ≤ day) (hlast : day ≤ lastDay) :
    -262143 ≤ yearOf day ∧ yearOf day ≤ 262142 := by
  have hlow := yearOf_le hfirst
  have hhigh := yearOf_le hlast
  have hfirstYear : yearOf firstDay = -262143 := by decide
  have hlastYear : yearOf lastDay = 262142 := by decide
  omega

theorem dayNumber?_eq_some_iff {y : Int} {m d : Nat} {n : Int} :
    dayNumber? y m d = some n ↔
      (-262143 ≤ y ∧ y ≤ 262142) ∧ IsDate y m d ∧ n = dayNumber y m d := by
  have hhas : hasDay y m d = true ↔ (-262143 ≤ y ∧ y ≤ 262142) ∧ IsDate y m d := by
    simp only [hasDay, Bool.and_eq_true, decide_eq_true_eq]
    constructor
    · rintro ⟨⟨⟨hlow, hhigh⟩, hone⟩, hday⟩
      exact ⟨⟨hlow, hhigh⟩, hone, hday⟩
    · rintro ⟨⟨hlow, hhigh⟩, hone, hday⟩
      exact ⟨⟨⟨hlow, hhigh⟩, hone⟩, hday⟩
  unfold dayNumber?
  split_ifs with h
  · rw [Option.some.injEq]
    have := hhas.mp h
    exact ⟨fun heq => ⟨this.1, this.2, heq.symm⟩, fun heq => heq.2.2.symm⟩
  · refine iff_of_false (fun heq => nomatch heq) fun heq => ?_
    exact h (hhas.mpr ⟨heq.1, heq.2.1⟩)

theorem dayNumber?_bounds {y : Int} {m d : Nat} {n : Int} (h : dayNumber? y m d = some n) :
    firstDay ≤ n ∧ n ≤ lastDay := by
  obtain ⟨hy, hdate, rfl⟩ := dayNumber?_eq_some_iff.mp h
  have hyear := (parts_dayNumber hdate).1
  constructor
  · by_contra hlt
    have hle := yearOf_le (Int.le_sub_one_of_lt (Int.not_le.mp hlt))
    have hbefore : yearOf (firstDay - 1) = -262144 := by decide
    omega
  · by_contra hlt
    have hle := yearOf_le (Int.add_one_le_of_lt (Int.not_le.mp hlt))
    have hafter : yearOf (lastDay + 1) = 262143 := by decide
    omega

theorem one_le_daysInMonth (year : Int) {month : Nat} (h : 1 ≤ month ∧ month ≤ 12) :
    1 ≤ daysInMonth year month := by
  unfold daysInMonth
  split
  any_goals omega
  · split_ifs <;> decide
  · grind

theorem dayNumber?_one_isSome_iff {y : Int} {m : Nat} (h : 1 ≤ m ∧ m ≤ 12) :
    (dayNumber? y m 1).isSome = true ↔ -262143 ≤ y ∧ y ≤ 262142 := by
  rw [Option.isSome_iff_exists]
  constructor
  · rintro ⟨n, hn⟩
    exact (dayNumber?_eq_some_iff.mp hn).1
  · intro hyear
    refine ⟨dayNumber y m 1, dayNumber?_eq_some_iff.mpr ⟨hyear, ?_, rfl⟩⟩
    exact ⟨Nat.le_refl 1, one_le_daysInMonth y h⟩

end RunScheduler.Calendar
