import RunScheduler.Proofs.Recurrence.Cron
import RunScheduler.Proofs.Recurrence.Cron.Numbers
import RunScheduler.Schedule

/-!
# Expressions of five fields

Minutes, hours, days of the month, months and weekdays, each written as the items of a field. Such
an expression is read as the pattern of these numbers at second 0, with weekdays counted from
Sunday as 1, and its occurrences are the instants that have all five parts
(`occurrences_of_fiveFields`).

Unix cron counts weekdays from Sunday as 0, and where both days are restricted it asks for one of
them only (`FiveFields.FiresInUnix`). Expressions mean the same to both where the weekday is left
open (`fires_iff_firesInUnix`), but not otherwise (`not_occurrences_as_in_unix`).
-/

namespace RunScheduler.Cron

/-- An expression of five fields. -/
structure FiveFields where
  minutes : Items
  hours : Items
  daysOfMonth : Items
  months : Items
  daysOfWeek : Items

namespace FiveFields

/-- The fields as they are written. -/
def words (e : FiveFields) : List (List Char) :=
  [e.minutes.text, e.hours.text, e.daysOfMonth.text, e.months.text, e.daysOfWeek.text]

/-- Every item is one of its field, if weekdays are counted from Sunday on. -/
structure Fits (e : FiveFields) (sunday : Nat) : Prop where
  minutes : e.minutes.Fit 0 59
  hours : e.hours.Fit 0 23
  daysOfMonth : e.daysOfMonth.Fit 1 31
  months : e.months.Fit 1 12
  daysOfWeek : e.daysOfWeek.Fit sunday (sunday + 6)

/-- The start of a minute whose month, hour and minute are among those of the expression. -/
structure HasTime (e : FiveFields) (t : Instant) : Prop where
  nano : t.nano = 0
  second : t.secondOfMinute = 0
  minute : e.minutes.Include 0 59 t.minute
  hour : e.hours.Include 0 23 t.hour
  month : e.months.Include 1 12 t.month

def OnDayOfMonth (e : FiveFields) (t : Instant) : Prop :=
  e.daysOfMonth.Include 1 31 t.dayOfMonth

/-- The weekday is among those of the expression, counted from Sunday on. -/
def OnWeekday (e : FiveFields) (sunday : Nat) (t : Instant) : Prop :=
  e.daysOfWeek.Include sunday (sunday + 6) (sunday + (t.weekday.fromSunday - 1))

instance (e : FiveFields) (t : Instant) : Decidable (e.OnDayOfMonth t) :=
  inferInstanceAs (Decidable (e.daysOfMonth.Include 1 31 t.dayOfMonth))

instance (e : FiveFields) (sunday : Nat) (t : Instant) : Decidable (e.OnWeekday sunday t) :=
  inferInstanceAs (Decidable (e.daysOfWeek.Include sunday (sunday + 6) _))

/-- The expression names the instant: all of its parts, with Sunday as 1. -/
structure Fires (e : FiveFields) (t : Instant) : Prop where
  time : e.HasTime t
  dayOfMonth : e.OnDayOfMonth t
  weekday : e.OnWeekday 1 t

/-- The expression leaves the day of the month or the weekday open: the field begins with a
star. -/
def LeavesDayOpen (e : FiveFields) : Prop :=
  e.daysOfMonth.first.span.isAll = true ∨ e.daysOfWeek.first.span.isAll = true

/-- The expression names the instant in Unix cron: Sunday is 0, and one of the two days is enough
where neither is left open. -/
structure FiresInUnix (e : FiveFields) (t : Instant) : Prop where
  time : e.HasTime t
  either : e.OnDayOfMonth t ∨ e.OnWeekday 0 t
  both : e.LeavesDayOpen → e.OnDayOfMonth t ∧ e.OnWeekday 0 t

end FiveFields

/-! ### Reading -/

variable {e : FiveFields} {s : List Char} {t after : Instant}

/-- A number of one digit. -/
def digit (c : Char) (hc : Text.isDigit c = true) : Items :=
  ⟨⟨.number ⟨[c], List.cons_ne_nil _ _, fun d hd => by rwa [List.mem_singleton.mp hd]⟩, none⟩, []⟩

/-- Second 0, which five fields get in front. -/
def secondZero : Items :=
  digit '0' rfl

/-- Fields with a space in front of each. -/
def spaced : List Items → List Char
  | [] => []
  | l :: rest => ' ' :: (l.text ++ spaced rest)

theorem skipGap_spaced (l : Items) (rest : List Items) :
    skipGap (spaced (l :: rest)) = l.text ++ spaced rest := by
  obtain ⟨c, s, htext, hc⟩ := l.text_cons
  have hskip : skipGap (spaced (l :: rest)) = skipGap (l.text ++ spaced rest) := rfl
  rw [hskip, htext]
  exact skipGap_cons_of_not_gap (isGap_of_digit_or_star hc) _

theorem endsField_spaced (rest : List Items) : EndsField (spaced rest) := by
  cases rest with
  | nil => exact ⟨⟨fun _ h => (nomatch h), fun _ h => (nomatch h)⟩, fun _ h => (nomatch h)⟩
  | cons l rest =>
    obtain ⟨c, s, htext, hc⟩ := l.text_cons
    have hskip : skipGap (spaced (l :: rest)) = c :: (s ++ spaced rest) := by
      rw [skipGap_spaced, htext, List.cons_append]
    have hne : (c ≠ '-' ∧ c ≠ '/') ∧ c ≠ ',' := by
      rcases hc with hdigit | rfl
      · exact ⟨⟨ne_of_isDigit hdigit (by decide), ne_of_isDigit hdigit (by decide)⟩,
          ne_of_isDigit hdigit (by decide)⟩
      · decide
    refine ⟨⟨forall_head?_cons.mpr (by decide), ?_⟩, ?_⟩
    · rw [hskip]
      exact forall_head?_cons.mpr hne.1
    · rw [hskip]
      exact forall_head?_cons.mpr hne.2

theorem normalize_eq (h : Text.words s = e.words) :
    normalize s = secondZero.text ++
      spaced [e.minutes, e.hours, e.daysOfMonth, e.months, e.daysOfWeek] := by
  have hfive : (Text.words s).length = 5 := by
    rw [h]
    rfl
  unfold normalize
  rw [if_pos hfive, h]
  simp only [FiveFields.words, Text.joinWith, spaced, List.append_assoc, List.append_nil]
  rfl

theorem readWord_zero (s : List Char) : readWord ('0' :: s) = none := by
  have hskip : skipGap ('0' :: s) = '0' :: s := skipGap_cons_of_not_gap (by decide) s
  unfold readWord
  rw [hskip]
  rfl

theorem ofText?_eq_readFields (h : Text.words s = e.words) :
    ofText? s = readFields (secondZero.text ++
      spaced [e.minutes, e.hours, e.daysOfMonth, e.months, e.daysOfWeek]) := by
  unfold ofText?
  rw [normalize_eq h]
  generalize spaced [e.minutes, e.hours, e.daysOfMonth, e.months, e.daysOfWeek] = rest
  have hword : readWord (secondZero.text ++ rest) = none := readWord_zero rest
  simp only [hword]

/-- The pattern of five fields. -/
structure Reads (e : FiveFields) (p : Pattern) : Prop where
  wellFormed : p.WellFormed
  seconds : ∀ n, n ∈ p.seconds ↔ secondZero.Include 0 59 n
  minutes : ∀ n, n ∈ p.minutes ↔ e.minutes.Include 0 59 n
  hours : ∀ n, n ∈ p.hours ↔ e.hours.Include 0 23 n
  daysOfMonth : ∀ n, n ∈ p.daysOfMonth ↔ e.daysOfMonth.Include 1 31 n
  months : ∀ n, n ∈ p.months ↔ e.months.Include 1 12 n
  daysOfWeek : ∀ n, n ∈ p.daysOfWeek ↔ e.daysOfWeek.Include 1 7 n
  years : p.years = Field.years.all

theorem exists_reads (hfits : e.Fits 1) (h : Text.words s = e.words) :
    ∃ p, ofText? s = some p ∧ Reads e p := by
  obtain ⟨seconds, hseconds, hsecondsAsc, hsecondsMem⟩ := readField_items .seconds
    (l := secondZero) (by decide)
    (endsField_spaced [e.minutes, e.hours, e.daysOfMonth, e.months, e.daysOfWeek])
  obtain ⟨minutes, hminutes, hminutesAsc, hminutesMem⟩ := readField_items .minutes
    hfits.minutes (endsField_spaced [e.hours, e.daysOfMonth, e.months, e.daysOfWeek])
  obtain ⟨hours, hhours, hhoursAsc, hhoursMem⟩ := readField_items .hours
    hfits.hours (endsField_spaced [e.daysOfMonth, e.months, e.daysOfWeek])
  obtain ⟨daysOfMonth, hdays, hdaysAsc, hdaysMem⟩ := readField_items .daysOfMonth
    hfits.daysOfMonth (endsField_spaced [e.months, e.daysOfWeek])
  obtain ⟨months, hmonths, hmonthsAsc, hmonthsMem⟩ := readField_items .months
    hfits.months (endsField_spaced [e.daysOfWeek])
  obtain ⟨daysOfWeek, hweek, hweekAsc, hweekMem⟩ := readField_items .daysOfWeek
    hfits.daysOfWeek (endsField_spaced [])
  rw [skipGap_spaced] at hseconds hminutes hhours hdays hmonths
  refine ⟨{ seconds, minutes, hours, daysOfMonth, months, daysOfWeek }, ?_, ?_⟩
  · rw [ofText?_eq_readFields h, readFields]
    simp only [hseconds, hminutes, hhours, hdays, hmonths, hweek, Option.bind_eq_bind,
      Option.bind_some]
    rfl
  · exact ⟨⟨hsecondsAsc, hminutesAsc, hhoursAsc, hdaysAsc, hmonthsAsc, Field.years.ascending_all⟩,
      hsecondsMem, hminutesMem, hhoursMem, hdaysMem, hmonthsMem, hweekMem, rfl⟩

/-! ### The instants that fields name -/

theorem secondZero_include_iff {n : Nat} : secondZero.Include 0 59 n ↔ n = 0 := by
  constructor
  · rintro ⟨i, hi, ⟨-, hle⟩, -⟩
    obtain rfl := List.mem_singleton.mp hi
    exact Nat.le_zero.mp hle
  · rintro rfl
    exact ⟨_, List.mem_singleton_self _, by decide⟩

theorem one_le_fromSunday (w : Weekday) : 1 ≤ w.fromSunday := by
  unfold Weekday.fromSunday
  omega

theorem Reads.matches_iff {p : Pattern} (h : Reads e p) :
    p.Matches t ↔ e.Fires t ∧ 1970 ≤ t.year ∧ t.year ≤ 2100 := by
  have hweekday : 1 + (t.weekday.fromSunday - 1) = t.weekday.fromSunday := by
    have := one_le_fromSunday t.weekday
    omega
  constructor
  · intro ht
    have hsecond : t.secondOfMinute = 0 :=
      secondZero_include_iff.mp ((h.seconds _).mp ht.clock.second)
    refine ⟨⟨⟨ht.nano, hsecond, (h.minutes _).mp ht.clock.minute, (h.hours _).mp ht.clock.hour,
      (h.months _).mp ht.month⟩, (h.daysOfMonth _).mp ht.dayOfMonth, ?_⟩, ?_⟩
    · rw [FiveFields.OnWeekday, hweekday]
      exact (h.daysOfWeek _).mp ht.weekday
    · obtain ⟨y, hy, heq⟩ := ht.year
      have hbounds := h.wellFormed.years.le y hy
      simp only [Field.least, Field.greatest] at hbounds
      omega
  · rintro ⟨⟨htime, hday, hweek⟩, hfirst, hlast⟩
    rw [FiveFields.OnWeekday, hweekday] at hweek
    refine ⟨htime.nano, ⟨(h.hours _).mpr htime.hour, (h.minutes _).mpr htime.minute, ?_⟩,
      (h.daysOfMonth _).mpr hday, (h.months _).mpr htime.month, (h.daysOfWeek _).mpr hweek, ?_⟩
    · exact (h.seconds _).mpr (secondZero_include_iff.mpr htime.second)
    · refine ⟨t.year.toNat, ?_, by omega⟩
      rw [h.years, Field.mem_all]
      simp only [Field.least, Field.greatest]
      omega

theorem exists_schedule {expression : String} {p : Pattern}
    (h : ofText? expression.toList = some p) :
    ∃ s : Schedule, Schedule.ofDefinition { recurrence := .cron expression } = .ok s ∧
      ∀ after, (s.occurrences after).toList = (p.occurrences after).toList.filter (after < ·) := by
  have hcompile : ({ recurrence := .cron expression } : Schedule.Definition).compile =
      .ok (.cron p) := by
    rw [Schedule.Definition.compile, Schedule.compileRecurrence, h]
  let s : Schedule := ⟨_, _, hcompile⟩
  refine ⟨s, Schedule.ofDefinition_definition s, fun after => ?_⟩
  have hall : ∀ l : List Instant, l.takeWhile (Schedule.notAfter none) = l := by
    intro l
    exact List.takeWhile_eq_self_iff.mpr fun _ _ => rfl
  rw [Schedule.occurrences, LazyList.toList_takeWhile, LazyList.toList_filter]
  change List.takeWhile (Schedule.notAfter none) ((p.occurrences after).toList.filter
    fun t => decide (after < t) && Schedule.notBefore none t) = _
  rw [hall]
  exact List.filter_congr fun t _ => Bool.and_true _

theorem Reads.mem_occurrences_iff {p : Pattern} (h : Reads e p) (hafter : Instant.epoch ≤ after) :
    t ∈ (p.occurrences after).toList ↔ (e.Fires t ∧ t.year ≤ 2100) ∧ after < t := by
  have hsecond : (0 : Int) ≤ after.second := Instant.second_le hafter
  have hexact := Pattern.exactAfter h.wellFormed h.years (by omega : -1 ≤ after.second)
  rw [hexact.mem_iff, h.matches_iff]
  refine and_congr_left fun hlt => and_congr_right fun _ => and_iff_right ?_
  have hepoch : Instant.epoch.year ≤ t.year :=
    Instant.year_le (Instant.second_le (Instant.le_of_lt (Instant.lt_of_le_of_lt hafter hlt)))
  exact hepoch

/-- **Five fields are numbers of five parts.** An expression whose items fit their fields, with
weekdays counted from Sunday as 1, is accepted. Its occurrences are starts of minutes, up to 2100,
that it names by minute, hour, day of the month, month and weekday at once, and from 1970 on they
are all of these, in their order. (A search that begins before 1970 goes on in 1970 from the month
and day where it began.) -/
theorem occurrences_of_fiveFields {expression : String} (hfits : e.Fits 1)
    (hwords : Text.words expression.toList = e.words) :
    ∃ s : Schedule, Schedule.ofDefinition { recurrence := .cron expression } = .ok s ∧
      (∀ after, ∀ t ∈ (s.occurrences after).toList, (e.Fires t ∧ t.year ≤ 2100) ∧ after < t) ∧
      ∀ after, Instant.epoch ≤ after → (s.occurrences after).toList.Pairwise (· < ·) ∧
        ∀ t, t ∈ (s.occurrences after).toList ↔ (e.Fires t ∧ t.year ≤ 2100) ∧ after < t := by
  obtain ⟨p, hp, hreads⟩ := exists_reads hfits hwords
  obtain ⟨s, hs, hoccurrences⟩ := exists_schedule hp
  refine ⟨s, hs, fun after t ht => ?_, fun after hafter => ?_⟩
  · rw [hoccurrences, List.mem_filter, decide_eq_true_eq] at ht
    have hmatches := Pattern.matches_of_mem_occurrences ht.1
    obtain ⟨hfires, -, hyear⟩ := hreads.matches_iff.mp hmatches
    exact ⟨⟨hfires, hyear⟩, ht.2⟩
  · have hsecond : (0 : Int) ≤ after.second := Instant.second_le hafter
    have hexact := Pattern.exactAfter hreads.wellFormed hreads.years
      (by omega : -1 ≤ after.second)
    rw [hoccurrences]
    refine ⟨hexact.pairwise.filter _, fun t => ?_⟩
    rw [List.mem_filter, decide_eq_true_eq, hreads.mem_occurrences_iff hafter]
    exact and_iff_left_of_imp fun h => h.2

def star : Items := ⟨⟨.all, none⟩, []⟩

/-- Nine o'clock on one weekday. -/
def weeklyAtNine (c : Char) (hc : Text.isDigit c = true) : FiveFields where
  minutes := digit '0' rfl
  hours := digit '9' rfl
  daysOfMonth := star
  months := star
  daysOfWeek := digit c hc

/-- On Mondays. -/
theorem occurrences_of_mondays :
    (weeklyAtNine '2' rfl).Fits 1 ∧
      ∃ s : Schedule, Schedule.ofDefinition { recurrence := .cron "0 9 * * 2" } = .ok s ∧
        (∀ after, ∀ t ∈ (s.occurrences after).toList,
          ((weeklyAtNine '2' rfl).Fires t ∧ t.year ≤ 2100) ∧ after < t) ∧
        ∀ after, Instant.epoch ≤ after → (s.occurrences after).toList.Pairwise (· < ·) ∧
          ∀ t, t ∈ (s.occurrences after).toList ↔
            ((weeklyAtNine '2' rfl).Fires t ∧ t.year ≤ 2100) ∧ after < t := by
  have hfits : (weeklyAtNine '2' rfl).Fits 1 :=
    ⟨by decide, by decide, by decide, by decide, by decide⟩
  have hwords : Text.words "0 9 * * 2".toList = (weeklyAtNine '2' rfl).words := by cbv
  exact ⟨hfits, occurrences_of_fiveFields hfits hwords⟩

/-! ### Unix cron -/

/-- Where the weekday is a star, the numbering of weekdays does not matter, and Unix cron too asks
for the day of the month alone. -/
theorem fires_iff_firesInUnix (hstar : e.daysOfWeek = ⟨⟨.all, none⟩, []⟩) :
    e.Fires t ↔ e.FiresInUnix t := by
  have hweekday : ∀ sunday, e.OnWeekday sunday t := by
    intro sunday
    have hindex := Nat.mod_lt (t.weekday.index + 1) (by decide : 0 < 7)
    rw [FiveFields.OnWeekday, hstar]
    refine ⟨⟨.all, none⟩, List.mem_singleton_self _, ⟨Nat.le_add_right _ _, ?_⟩, Nat.mod_one _⟩
    show sunday + (t.weekday.fromSunday - 1) ≤ sunday + 6
    unfold Weekday.fromSunday
    omega
  constructor
  · rintro ⟨htime, hday, -⟩
    exact ⟨htime, Or.inl hday, fun _ => ⟨hday, hweekday 0⟩⟩
  · rintro ⟨htime, -, hboth⟩
    have hopen : e.LeavesDayOpen := by
      refine Or.inr ?_
      rw [hstar]
      rfl
    exact ⟨htime, (hboth hopen).1, hweekday 1⟩

/-- Nine o'clock on the first Sunday of 1970. -/
def sundayAtNine : Instant := (Instant.at? 3 9 0 0 0).getD .epoch

/-- **Weekdays are not those of Unix cron.** Expressions that Unix cron allows do not all have the
occurrences that Unix cron gives them, not even from 1970 on: nine o'clock on weekday 1 falls on
Sundays. -/
theorem not_occurrences_as_in_unix :
    ¬ ∀ (e : FiveFields) (expression : String), e.Fits 0 →
      Text.words expression.toList = e.words →
      ∃ s : Schedule, Schedule.ofDefinition { recurrence := .cron expression } = .ok s ∧
        ∀ after t, Instant.epoch ≤ after →
          (t ∈ (s.occurrences after).toList ↔
            (e.FiresInUnix t ∧ t.year ≤ 2100) ∧ after < t) := by
  intro hall
  let e := weeklyAtNine '1' rfl
  have hwords : Text.words "0 9 * * 1".toList = e.words := by cbv
  have hepoch : Instant.epoch ≤ .epoch := Instant.le_refl _
  obtain ⟨s, hs, hunix⟩ :=
    hall e "0 9 * * 1" ⟨by decide, by decide, by decide, by decide, by decide⟩ hwords
  obtain ⟨p, hp, hreads⟩ :=
    exists_reads (e := e) ⟨by decide, by decide, by decide, by decide, by decide⟩ hwords
  obtain ⟨s', hs', hoccurrences⟩ := exists_schedule hp
  obtain rfl : s = s' := Except.ok.inj (hs.symm.trans hs')
  have hfires : e.Fires sundayAtNine :=
    ⟨⟨by decide, by decide, by decide, by decide, by decide⟩, by decide, by decide⟩
  have hmem : sundayAtNine ∈ (s.occurrences .epoch).toList := by
    rw [hoccurrences, List.mem_filter]
    exact ⟨(hreads.mem_occurrences_iff hepoch).mpr ⟨⟨hfires, by decide⟩, by decide⟩, by decide⟩
  obtain ⟨⟨hfiresInUnix, -⟩, -⟩ := (hunix .epoch sundayAtNine hepoch).mp hmem
  have hsunday : ¬ e.OnWeekday 0 sundayAtNine := by decide
  exact hsunday (hfiresInUnix.both (Or.inl rfl)).2

end RunScheduler.Cron
