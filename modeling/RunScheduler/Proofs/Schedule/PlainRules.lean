import RunScheduler.Proofs.Recurrence.Rule.Reading
import RunScheduler.Proofs.Recurrence.Selection
import RunScheduler.Schedule

/-!
# Where plain rules start

A rule without lists takes everything that its period does not decide from its start, so that the
start should be the first occurrence. It is wherever the frequency rebuilds the start from its
parts (`Rebuilds`): minutes and hours are counted from the start itself, while the times of a day
are made of its hour, minute and second, without the fraction, and weeks are counted from a Monday
that the calendar has to have. Exactly then the start of a schedule is the first occurrence after
any earlier instant (`head?_occurrences_eq_start_iff`).

The number of occurrences is counted from the start on, whatever instant is asked about. Since no
text gives a rule that counts to zero (`count_pos_of_ofText`), it includes the start.
-/

namespace RunScheduler

namespace Rule

variable {r : Rule} {start after t : Instant} {k : Nat} {l : List Instant}

/-- A rule without lists. -/
structure IsPlain (r : Rule) : Prop where
  byDay : r.byDay = []
  byMonthDay : r.byMonthDay = []
  byHour : r.byHour = []
  byMinute : r.byMinute = []

/-- The first period has the start itself: nothing of it is lost where times of day are made of its
parts, and the week that it lies in begins in the calendar. -/
structure Rebuilds (r : Rule) (start : Instant) : Prop where
  fraction : r.frequency ≠ .minutely → r.frequency ≠ .hourly → start.nano = 0
  monday : r.frequency = .weekly → Calendar.firstDay ≤ mondayOf start

/-! ### The first period -/

theorem IsPlain.allows (h : r.IsPlain) (t : Instant) : r.allows t = true :=
  allows_iff.mpr ⟨absurd h.byDay, absurd h.byMonthDay, absurd h.byHour, absurd h.byMinute⟩

theorem IsPlain.timesOn_day (h : r.IsPlain) (hnano : start.nano = 0) :
    r.timesOn start start.day = [start] := by
  have hat : Instant.at? start.day start.hour start.minute start.secondOfMinute 0 = some start :=
    Instant.at?_eq_some_iff_parts.mpr ⟨rfl, rfl, rfl, rfl, hnano⟩
  rw [timesOn, h.byHour, h.byMinute]
  simp only [orDefault, List.isEmpty_nil, if_true, List.flatMap_singleton, List.filterMap_cons, hat,
    List.filterMap_nil]

theorem IsPlain.offers_zero (h : r.IsPlain) (hstart : r.Rebuilds start) :
    r.offers start 0 = some [start] := by
  have hday := start.day_bounds
  have hnow : start.addSeconds? 0 = some start := start.addSeconds?_zero
  have hnano (hm : r.frequency ≠ .minutely) (hh : r.frequency ≠ .hourly) :
      r.timesOn start start.day = [start] := h.timesOn_day (hstart.fraction hm hh)
  rw [offers, Nat.zero_mul]
  cases hf : r.frequency with
  | minutely => simpa using hnow
  | hourly => simpa [h.byMinute] using hnow
  | daily => simp [hnano, hf, inCalendar_iff, hday]
  | weekly =>
    have hmonday := hstart.monday hf
    have hle : mondayOf start ≤ Calendar.lastDay := by
      rw [mondayOf]
      omega
    have hback : mondayOf start + start.weekday.index = start.day := by
      rw [mondayOf]
      omega
    simp [hnano, hf, weekdays, h.byDay, inCalendar_iff, hback, hday, hmonday, hle]
  | monthly =>
    have hindex : start.monthIndex =
        start.year * 12 + (start.month - 1 : Nat) + ((0 : Nat) : Int) := (Int.add_zero _).symm
    obtain ⟨hyear, hmonth⟩ := Instant.monthIndex_eq_int_iff.mp hindex
    have hexists : (Calendar.dayNumber? start.year start.month 1).isSome = true :=
      (Calendar.dayNumber?_one_isSome_iff start.month_bounds).mpr
        (Calendar.yearOf_bounds hday.1 hday.2)
    have hthis := start.dayNumber?_parts
    simp only
    rw [← hyear, ← hmonth, if_pos hexists]
    simp [hnano, hf, monthDays, h.byMonthDay, h.byDay, hthis]

theorem IsPlain.candidates_zero (h : r.IsPlain) (hstart : r.Rebuilds start) :
    r.candidates start 0 = some [start] := by
  rw [candidates, h.offers_zero hstart, Option.map_some, List.filter_cons, if_pos (h.allows start)]
  rfl

theorem nano_of_mem_timesOn {day : Int} (h : t ∈ r.timesOn start day) : t.nano = 0 := by
  unfold timesOn at h
  obtain ⟨hour, -, h⟩ := List.mem_flatMap.mp h
  obtain ⟨minute, -, h⟩ := List.mem_filterMap.mp h
  exact (Instant.at?_eq_some_iff.mp h).2.2

theorem rebuilds_of_mem_candidates (h : r.candidates start k = some l) (hmem : start ∈ l) :
    r.Rebuilds start := by
  obtain ⟨offered, hoffers, rfl⟩ := Option.map_eq_some_iff.mp h
  replace hmem := (List.mem_filter.mp (mem_ascending.mp hmem)).1
  unfold offers at hoffers
  refine ⟨fun hm hh => ?_, fun hweekly => ?_⟩
  · cases hf : r.frequency with
    | minutely => exact absurd hf hm
    | hourly => exact absurd hf hh
    | daily =>
      simp only [hf] at hoffers
      split_ifs at hoffers
      cases hoffers
      exact nano_of_mem_timesOn hmem
    | weekly =>
      simp only [hf] at hoffers
      split_ifs at hoffers
      cases hoffers
      obtain ⟨w, -, hmem⟩ := List.mem_flatMap.mp hmem
      exact nano_of_mem_timesOn hmem
    | monthly =>
      simp only [hf] at hoffers
      split_ifs at hoffers
      cases hoffers
      obtain ⟨day, -, hmem⟩ := List.mem_flatMap.mp hmem
      split at hmem
      · cases hmem
      · exact nano_of_mem_timesOn hmem
  · simp only [hweekly] at hoffers
    split_ifs at hoffers with hcalendar
    rw [Bool.and_eq_true, Bool.and_eq_true, inCalendar_iff] at hcalendar
    exact hcalendar.1.1.1

/-! ### Occurrences -/

theorem toList_occurrences_of_lt (h : after < start) :
    (r.occurrences start after).toList =
      r.cut ((r.expand start 0 0).toList.filter (start ≤ ·)) := by
  have hnone : r.skipped start after = 0 := if_pos (Or.inr (Instant.le_of_lt h))
  rw [toList_occurrences_eq_cut, hnone, List.filter_eq_self]
  intro t ht
  have hmem := (r.cut_isPrefix _).subset ht
  exact decide_eq_true (Instant.lt_of_lt_of_le h (of_decide_eq_true (List.mem_filter.mp hmem).2))

/-- A plain rule starts at its start exactly if it rebuilds it. -/
theorem IsPlain.head?_occurrences_eq_some_iff (h : r.IsPlain) (hlast : r.notPast start = true)
    (hcount : ∀ n ∈ r.count, 0 < n) (hlt : after < start) :
    (r.occurrences start after).toList.head? = some start ↔ r.Rebuilds start := by
  rw [toList_occurrences_of_lt hlt]
  constructor
  · intro hhead
    have hcut := (r.cut_isPrefix _).subset (List.mem_of_head? hhead)
    have hexpand := (r.expand_isPrefix start 0).subset (List.mem_filter.mp hcut).1
    obtain ⟨k, l, -, hl, hmem⟩ := mem_unrolled_iff.mp hexpand
    exact rebuilds_of_mem_candidates hl hmem
  · intro hstart
    rw [expand_of_cons (h.candidates_zero hstart), LazyList.toList_prepend, List.singleton_append,
      List.filter_cons, if_pos (decide_eq_true (Instant.le_refl start)), cut]
    cases hn : r.count with
    | none => simp [hlast]
    | some n =>
      obtain ⟨m, rfl⟩ : ∃ m, n = m + 1 := Nat.exists_eq_add_one.mpr (hcount n hn)
      simp [hlast]

/-- The rule without its count. -/
def uncounted (r : Rule) : Rule :=
  { r with count := none }

theorem expand_uncounted (r : Rule) (start : Instant) (k empty : Nat) :
    (r.uncounted.expand start k empty).toList = (r.expand start k empty).toList := by
  have hsame (k : Nat) : r.uncounted.candidates start k = r.candidates start k := rfl
  induction k, empty using expand.induct r start with
  | case1 k empty hnone => rw [expand_of_none hnone, expand_of_none ((hsame k).trans hnone)]
  | case2 k empty hsome hstop =>
    rw [expand_of_empty hsome, expand_of_empty ((hsame k).trans hsome), if_pos hstop,
      if_pos hstop]
  | case3 k empty hsome hgo ih =>
    rw [expand_of_empty hsome, expand_of_empty ((hsame k).trans hsome), if_neg hgo, if_neg hgo, ih]
  | case4 k empty t l hsome ih =>
    rw [expand_of_cons hsome, expand_of_cons ((hsame k).trans hsome), LazyList.toList_prepend,
      LazyList.toList_prepend, ih]

theorem toList_occurrences_of_count {n : Nat} (hcount : r.count = some n) (hlt : after < start) :
    (r.occurrences start after).toList =
      (r.uncounted.occurrences start after).toList.take n := by
  rw [toList_occurrences_of_lt hlt, toList_occurrences_of_lt hlt, expand_uncounted, cut, cut,
    hcount]
  rfl

/-! ### Counts in texts -/

theorem count_pos_of_ofText {text : List Char} (h : ofText text = .ok r) :
    ∀ n ∈ r.count, 0 < n :=
  fun n hn => ((canonical_of_ofText h).count n hn).1

end Rule

namespace Schedule

variable {s : Schedule} {r : Rule} {text : String} {start after : Instant}

/-! ### Schedules -/

theorem timing_of_rule (htext : s.definition.recurrence = .rrule text)
    (hread : Rule.ofText text.toList = .ok r) (hown : r.start? = none)
    (hstart : s.start = some start) :
    s.timing = .rule r start ∧ notAfter s.stop start = true := by
  have hcompiled := s.compiled
  have hrule : compileRecurrence (some start) (.rrule text) = .ok (.rule r start) := by
    simp only [compileRecurrence, hread, ruleStart, hown]
  change s.definition.start = some start at hstart
  rw [Definition.compile, htext, hstart, hrule] at hcompiled
  unfold Schedule.stop
  cases hstop : s.definition.stop with
  | none =>
    rw [hstop] at hcompiled
    exact ⟨(Except.ok.inj hcompiled).symm, rfl⟩
  | some stop =>
    simp only [hstop] at hcompiled
    split_ifs at hcompiled with hbefore
    exact ⟨(Except.ok.inj hcompiled).symm, decide_eq_true (Instant.not_lt.mp hbefore)⟩

theorem toList_occurrences_of_rule (htiming : s.timing = .rule r start)
    (hstart : s.start = some start) :
    (s.occurrences after).toList =
      (r.occurrences start after).toList.takeWhile (notAfter s.stop) := by
  unfold occurrences
  rw [LazyList.toList_takeWhile, LazyList.toList_filter, htiming, hstart, Timing.occurrences]
  rw [List.filter_eq_self.mpr]
  intro t ht
  rw [Rule.toList_occurrences_eq_cut] at ht
  obtain ⟨ht, hlt⟩ := List.mem_filter.mp ht
  have hle := (List.mem_filter.mp ((r.cut_isPrefix _).subset ht)).2
  rw [Bool.and_eq_true]
  exact ⟨hlt, hle⟩

theorem head?_occurrences_of_rule (htiming : s.timing = .rule r start)
    (hstart : s.start = some start) (hstop : notAfter s.stop start = true) :
    (s.occurrences after).toList.head? = some start ↔
      (r.occurrences start after).toList.head? = some start := by
  rw [toList_occurrences_of_rule htiming hstart]
  cases (r.occurrences start after).toList with
  | nil => rfl
  | cons t l =>
    rw [List.takeWhile_cons, List.head?_cons]
    constructor
    · intro h
      split_ifs at h
      · exact h
      · cases h
    · rintro ⟨⟩
      rw [if_pos hstop, List.head?_cons]

/-- **A schedule of a plain rule starts at its start** exactly where the frequency rebuilds it.
Without a start in the rule's own text, and with `until` not before the schedule's start, the start
is then the first occurrence after every earlier instant, and otherwise after none of them. A rule
that counts gives the first so many occurrences of the one that does not, as far as the schedule's
stop allows them. -/
theorem head?_occurrences_eq_start_iff (htext : s.definition.recurrence = .rrule text)
    (hread : Rule.ofText text.toList = .ok r) (hplain : r.IsPlain) (hown : r.start? = none)
    (hstart : s.start = some start) (huntil : r.notPast start = true) (hlt : after < start) :
    ((s.occurrences after).toList.head? = some start ↔ r.Rebuilds start) ∧
      ∀ n, r.count = some n → 0 < n ∧ (s.occurrences after).toList =
        ((r.uncounted.occurrences start after).toList.take n).takeWhile (notAfter s.stop) := by
  obtain ⟨htiming, hstop⟩ := timing_of_rule htext hread hown hstart
  have hcount := Rule.count_pos_of_ofText hread
  refine ⟨?_, fun n hn => ⟨hcount n hn, ?_⟩⟩
  · exact (head?_occurrences_of_rule htiming hstart hstop).trans
      (hplain.head?_occurrences_eq_some_iff huntil hcount hlt)
  · rw [toList_occurrences_of_rule htiming hstart, Rule.toList_occurrences_of_count hn hlt]

/-- The schedule of a rule without a start of its own, begun at an instant. -/
def ofRule (hread : Rule.ofText text.toList = .ok r) (hown : r.start? = none) (start : Instant) :
    Schedule where
  definition := { recurrence := .rrule text, start := some start }
  timing := .rule r start
  compiled := by simp only [Definition.compile, compileRecurrence, hread, ruleStart, hown]

/-- Every day, so many times. -/
def daily (count : Option Nat) : Rule where
  frequency := .daily
  interval := 1
  count := count
  until? := none
  byDay := []
  byMonthDay := []
  byHour := []
  byMinute := []
  start? := none
  interval_pos := Nat.one_pos

theorem isPlain_daily (count : Option Nat) : (daily count).IsPlain :=
  ⟨rfl, rfl, rfl, rfl⟩

theorem ofText_twoDays : Rule.ofText "FREQ=DAILY;COUNT=2".toList = .ok (daily (some 2)) := by
  decide

/-- Two days in a row at nine, from 31 January 2024 on. -/
def twoMornings : Schedule := ofRule ofText_twoDays rfl Rule.january

/-- After 1970 the first of the two mornings is the start. -/
theorem head?_occurrences_of_twoMornings :
    (twoMornings.definition.recurrence = .rrule "FREQ=DAILY;COUNT=2" ∧
      (daily (some 2)).notPast Rule.january = true ∧ Instant.epoch < Rule.january) ∧
      (twoMornings.occurrences .epoch).toList.head? = some Rule.january ∧
      (twoMornings.occurrences .epoch).toList =
        ((((daily none).occurrences Rule.january .epoch).toList.take 2).takeWhile
          (notAfter none)) := by
  have hlt : Instant.epoch < Rule.january := by decide
  obtain ⟨hhead, hcount⟩ := head?_occurrences_eq_start_iff (s := twoMornings) rfl ofText_twoDays
    (isPlain_daily _) rfl rfl rfl hlt
  have hrebuilds : (daily (some 2)).Rebuilds Rule.january :=
    ⟨fun _ _ => by decide, fun h => nomatch h⟩
  exact ⟨⟨rfl, rfl, hlt⟩, hhead.mpr hrebuilds, (hcount 2 rfl).2⟩

/-- Half a second past nine on the first day of 2024. -/
def pastNine : Instant :=
  ⟨1704099600, 500000000, by decide, by decide, by decide, by decide⟩

/-- Every day from then on, but at nine sharp, so that the first day is left out. -/
theorem not_head?_occurrences_eq_start :
    ¬ ∀ (s : Schedule) (text : String) (r : Rule) (start after : Instant),
      s.definition.recurrence = .rrule text → Rule.ofText text.toList = .ok r → r.IsPlain →
      r.start? = none → s.start = some start → start.isLeap = false → r.notPast start = true →
      notAfter s.stop start = true → after < start →
      (s.occurrences after).toList.head? = some start := by
  intro h
  have hread : Rule.ofText "FREQ=DAILY".toList = .ok (daily none) := by decide
  have hlt : Instant.epoch < pastNine := by decide
  have hhead := h (ofRule hread rfl pastNine) _ (daily none) pastNine .epoch rfl hread
    (isPlain_daily none) rfl rfl (by decide) rfl rfl hlt
  rw [head?_occurrences_of_rule rfl rfl rfl, (isPlain_daily none).head?_occurrences_eq_some_iff rfl
    (fun n hn => nomatch hn) hlt] at hhead
  have hwhole := hhead.fraction (by decide) (by decide)
  exact absurd hwhole (by decide)

end Schedule

end RunScheduler
