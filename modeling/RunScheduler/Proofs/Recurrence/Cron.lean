import RunScheduler.Proofs.Recurrence.Cron.Matches

/-!
# The search for matches

Each search from an instant on finds the first match that is not earlier: on its day, in its
month, in its year, and at last among all (`first_onDay`, `first_inMonth`, `first_inYear`,
`first_next`). A later day, month or year is searched from its first instant on.

So the occurrences of a pattern ascend and are the matches that are later, where every search
begins in a year of the pattern, as all do from 1970 on if it has all years (`exactAfter`).
-/

namespace RunScheduler.Cron.Pattern

variable {p : Pattern} {t u start after : Instant}

/-! ### The date -/

theorem first_onDay (hp : p.WellFormed) {year : Nat} (hyear : start.year = year)
    (hin : year ∈ p.years ∧ start.month ∈ p.months ∧ start.dayOfMonth ∈ p.daysOfMonth) :
    First Instant.second (fun t => p.Matches t ∧ start.second ≤ t.second ∧ t.day = start.day)
      (p.firstOnDay? year start.month start.dayOfMonth (.of start)) := by
  have hnumber : Calendar.dayNumber? year start.month start.dayOfMonth = some start.day := by
    rw [← hyear]
    exact start.dayNumber?_parts
  have hclock := first_clock hp (clock_of_lt start).2
  have hfrom := second_eq_place start
  by_cases hweekday : (Calendar.weekdayOf start.day).fromSunday ∈ p.daysOfWeek
  · cases hfirst : p.firstClock? (.of start) with
    | none =>
      have hnone : p.firstOnDay? year start.month start.dayOfMonth (.of start) = none := by
        simp only [firstOnDay?, hnumber, if_pos hweekday, hfirst]
      rw [hfirst] at hclock
      rw [hnone]
      rintro t ⟨ht, hle, hday⟩
      have hplace := second_eq_place t
      rw [hday] at hplace
      exact hclock _ ⟨ht.clock, by omega⟩
    | some c =>
      rw [hfirst] at hclock
      obtain ⟨⟨hc, hle⟩, hleast⟩ := hclock
      obtain ⟨t, ht⟩ := Instant.exists_at? start.day_bounds (hc.lt hp)
      have hsome : p.firstOnDay? year start.month start.dayOfMonth (.of start) = some t := by
        simp only [firstOnDay?, hnumber, if_pos hweekday, hfirst, ht]
      obtain ⟨hday, -⟩ := Instant.parts_of_at? ht
      have hplace := second_eq_place t
      rw [clock_of_at? ht, hday] at hplace
      rw [hsome]
      refine ⟨⟨matches_of_firstOnDay? hin hsome, by omega, hday⟩, ?_⟩
      rintro u ⟨hu, hle', hday'⟩
      have hplace' := second_eq_place u
      rw [hday'] at hplace'
      have := hleast _ ⟨hu.clock, by omega⟩
      omega
  · have hnone : p.firstOnDay? year start.month start.dayOfMonth (.of start) = none := by
      simp only [firstOnDay?, hnumber, if_neg hweekday]
    rw [hnone]
    rintro t ⟨ht, -, hday⟩
    have hmem := ht.weekday
    unfold Instant.weekday at hmem
    rw [hday] at hmem
    exact hweekday hmem

theorem exists_midnight {y : Int} {m d : Nat} {n : Int}
    (h : Calendar.dayNumber? y m d = some n) :
    ∃ t : Instant, (t.year = y ∧ t.month = m ∧ t.dayOfMonth = d) ∧ Clock.of t = midnight ∧
      ∀ u : Instant, t.day ≤ u.day → t.second ≤ u.second := by
  obtain ⟨-, hdate, hn⟩ := Calendar.dayNumber?_eq_some_iff.mp h
  obtain ⟨t, ht⟩ := Instant.exists_at? (h := 0) (m := 0) (s := 0) (Calendar.dayNumber?_bounds h)
    (by decide)
  obtain ⟨hday, -⟩ := Instant.parts_of_at? ht
  refine ⟨t, Instant.date_of_day_eq hdate (hday.trans hn), ?_, fun u hu => ?_⟩
  · exact clock_of_at? (c := midnight) ht
  · have hfirst := (Instant.at?_eq_some_iff.mp ht).2.1
    have hparts := u.second_eq_parts
    omega

theorem first_onLaterDay (hp : p.WellFormed) {year : Nat} (hyear : start.year = year) {d : Nat}
    (hin : year ∈ p.years ∧ start.month ∈ p.months ∧ d ∈ p.daysOfMonth)
    (hlater : start.dayOfMonth < d) (hd : d ≤ Calendar.daysInMonth year start.month) :
    First Instant.second
      (fun t => (p.Matches t ∧ start.second ≤ t.second ∧ t.monthIndex = start.monthIndex) ∧
        t.dayOfMonth = d)
      (p.firstOnDay? year start.month d midnight) := by
  have hdate : Calendar.IsDate year start.month d :=
    ⟨Nat.le_trans start.one_le_dayOfMonth (Nat.le_of_lt hlater), hd⟩
  have hnumber := Calendar.dayNumber?_eq_some_iff.mpr ⟨hp.year_bounds hin.1, hdate, rfl⟩
  obtain ⟨first, ⟨hy, hm, hday⟩, hclock, hfirst⟩ := exists_midnight hnumber
  have hmonth : first.monthIndex = start.monthIndex :=
    Instant.monthIndex_eq_iff.mpr ⟨hy.trans hyear.symm, hm⟩
  have hstart : start.second < first.second :=
    Instant.second_lt_of_dayOfMonth_lt hmonth.symm (by omega)
  have hin' : year ∈ p.years ∧ first.month ∈ p.months ∧ first.dayOfMonth ∈ p.daysOfMonth := by
    rw [hm, hday]
    exact hin
  have hfound := first_onDay hp hy hin'
  rw [hm, hday, hclock] at hfound
  refine hfound.congr fun t => ?_
  rw [Instant.day_eq_iff, hmonth, hday]
  constructor
  · rintro ⟨⟨ht, -, hmonth'⟩, hday'⟩
    have heq : t.day = first.day :=
      Instant.day_eq_iff.mpr ⟨hmonth'.trans hmonth.symm, hday'.trans hday.symm⟩
    exact ⟨ht, hfirst t (Int.le_of_eq heq.symm), hmonth', hday'⟩
  · rintro ⟨ht, hle, hmonth', hday'⟩
    exact ⟨⟨ht, Int.le_trans (Int.le_of_lt hstart) hle, hmonth'⟩, hday'⟩

theorem first_inMonth (hp : p.WellFormed) {year : Nat} (hyear : start.year = year)
    (hin : year ∈ p.years ∧ start.month ∈ p.months) :
    First Instant.second
      (fun t => p.Matches t ∧ start.second ≤ t.second ∧ t.monthIndex = start.monthIndex)
      (p.firstInMonth? year start.month start.dayOfMonth (.of start)) := by
  have hlength : start.dayOfMonth ≤ Calendar.daysInMonth year start.month := by
    rw [← hyear]
    exact (Calendar.isDate_parts start.day).day_le
  unfold firstInMonth?
  simp only [Nat.min_eq_left hlength]
  generalize hl : p.daysOfMonth.filter (fun d =>
    decide (start.dayOfMonth ≤ d) && decide (d ≤ Calendar.daysInMonth year start.month)) = l
  have hasc : l.Pairwise (· < ·) := by
    rw [← hl]
    exact hp.daysOfMonth.pairwise.filter _
  have hmem : ∀ d, d ∈ l ↔ d ∈ p.daysOfMonth ∧ start.dayOfMonth ≤ d ∧
      d ≤ Calendar.daysInMonth year start.month := by
    intro d
    rw [← hl, List.mem_filter, Bool.and_eq_true, decide_eq_true_eq, decide_eq_true_eq]
  have hstart : start.dayOfMonth ∈ p.daysOfMonth ↔ start.dayOfMonth ∈ l := by
    rw [hmem]
    exact (and_iff_left ⟨Nat.le_refl _, hlength⟩).symm
  refine First.findSome? Instant.dayOfMonth Prod.fst ?_ ?_ ?_ ?_
  · rw [List.zipIdx_map_fst]
    exact hasc
  · rintro a b ⟨-, -, ha⟩ ⟨-, -, hb⟩ hlt
    exact Int.le_of_lt (Instant.second_lt_of_dayOfMonth_lt (ha.trans hb.symm) hlt)
  · rintro t ⟨ht, hle, hmonth⟩
    obtain ⟨hy, hm⟩ := Instant.monthIndex_eq_iff.mp hmonth
    have hday : t.dayOfMonth ≤ Calendar.daysInMonth t.year t.month :=
      (Calendar.isDate_parts t.day).day_le
    rw [hy, hm, hyear] at hday
    rw [List.zipIdx_map_fst, hmem]
    exact ⟨ht.dayOfMonth, Instant.dayOfMonth_le hmonth.symm hle, hday⟩
  · rintro ⟨d, i⟩ hdi
    obtain ⟨hd, hle, hdlength⟩ :=
      (hmem d).mp (List.mem_of_getElem? (List.mem_zipIdx_iff_getElem?.mp hdi))
    simp only [hstart, ite_index hasc hdi fun m hm => ((hmem m).mp hm).2.1]
    by_cases hsame : d = start.dayOfMonth
    · subst hsame
      rw [if_pos rfl]
      refine (first_onDay hp hyear ⟨hin.1, hin.2, hd⟩).congr fun t => ?_
      rw [Instant.day_eq_iff, and_assoc, and_assoc]
    · rw [if_neg hsame]
      exact first_onLaterDay hp hyear ⟨hin.1, hin.2, hd⟩ (by omega) hdlength

theorem first_inLaterMonth (hp : p.WellFormed) {year : Nat} (hyear : start.year = year) {m : Nat}
    (hin : year ∈ p.years ∧ m ∈ p.months) (hlater : start.month < m) :
    First Instant.second
      (fun t => (p.Matches t ∧ start.second ≤ t.second ∧ t.year = start.year) ∧ t.month = m)
      (p.firstInMonth? year m 1 midnight) := by
  have hm := hp.months.le m hin.2
  have hdate : Calendar.IsDate year m 1 := ⟨Nat.le_refl 1, Calendar.one_le_daysInMonth year hm⟩
  have hnumber := Calendar.dayNumber?_eq_some_iff.mpr ⟨hp.year_bounds hin.1, hdate, rfl⟩
  obtain ⟨first, ⟨hy, hmonth, hday⟩, hclock, hfirst⟩ := exists_midnight hnumber
  have hstart : start.second < first.second :=
    Instant.second_lt_of_month_lt (hyear.trans hy.symm) (by omega)
  have hin' : year ∈ p.years ∧ first.month ∈ p.months := by
    rw [hmonth]
    exact hin
  have hfound := first_inMonth hp hy hin'
  rw [hmonth, hday, hclock] at hfound
  refine hfound.congr fun t => ?_
  rw [Instant.monthIndex_eq_iff, hy, hmonth, hyear]
  constructor
  · rintro ⟨⟨ht, -, hyear'⟩, hmonth'⟩
    have hsame : first.monthIndex = t.monthIndex :=
      Instant.monthIndex_eq_iff.mpr ⟨hy.trans hyear'.symm, hmonth.trans hmonth'.symm⟩
    have hfrom : first.dayOfMonth ≤ t.dayOfMonth := by
      rw [hday]
      exact t.one_le_dayOfMonth
    exact ⟨ht, hfirst t (Instant.day_le_of_dayOfMonth_le hsame hfrom), hyear', hmonth'⟩
  · rintro ⟨ht, hle, hyear', hmonth'⟩
    exact ⟨⟨ht, Int.le_trans (Int.le_of_lt hstart) hle, hyear'⟩, hmonth'⟩

theorem first_inYear (hp : p.WellFormed) {year : Nat} (hyear : start.year = year)
    (hin : year ∈ p.years) :
    First Instant.second
      (fun t => p.Matches t ∧ start.second ≤ t.second ∧ t.year = start.year)
      (p.firstInYear? year (placeOf start)) := by
  refine First.findSome? Instant.month Prod.fst ?_ ?_ ?_ ?_
  · rw [map_fst_candidates]
    exact hp.months.pairwise.filter _
  · rintro a b ⟨-, -, ha⟩ ⟨-, -, hb⟩ hlt
    exact Int.le_of_lt (Instant.second_lt_of_month_lt (ha.trans hb.symm) hlt)
  · rintro t ⟨ht, hle, hyear'⟩
    rw [map_fst_candidates, List.mem_filter, decide_eq_true_eq]
    exact ⟨ht.month, Instant.month_le hyear'.symm hle⟩
  · rintro ⟨m, same⟩ hmem
    obtain ⟨⟨hm, hle⟩, hsame⟩ := mem_candidates_iff.mp hmem
    change start.month ≤ m at hle
    cases same with
    | true =>
      obtain rfl : m = start.month := beq_iff_eq.mp hsame.symm
      refine (first_inMonth hp hyear ⟨hin, hm⟩).congr fun t => ?_
      rw [Instant.monthIndex_eq_iff, and_assoc, and_assoc]
    | false =>
      have hne : m ≠ start.month := beq_eq_false_iff_ne.mp hsame.symm
      exact first_inLaterMonth hp hyear ⟨hin, hm⟩ (by omega)

theorem first_inLaterYear (hp : p.WellFormed) {year : Nat} (hin : year ∈ p.years)
    (hlater : start.year < year) :
    First Instant.second
      (fun t => (p.Matches t ∧ start.second ≤ t.second) ∧ t.year = year)
      (p.firstInYear? year newYear) := by
  have hdate : Calendar.IsDate year 1 1 :=
    ⟨Nat.le_refl 1, Calendar.one_le_daysInMonth year (by decide)⟩
  have hnumber := Calendar.dayNumber?_eq_some_iff.mpr ⟨hp.year_bounds hin, hdate, rfl⟩
  obtain ⟨first, ⟨hy, hmonth, hday⟩, hclock, hfirst⟩ := exists_midnight hnumber
  have hstart : start.second < first.second := Instant.second_lt_of_year_lt (by omega)
  have hplace : placeOf first = newYear := by
    have : placeOf first = ⟨first.month, first.dayOfMonth, Clock.of first⟩ := rfl
    rw [this, hmonth, hday, hclock]
    rfl
  have hfound := first_inYear hp hy hin
  rw [hplace] at hfound
  refine hfound.congr fun t => ?_
  rw [hy]
  constructor
  · rintro ⟨⟨ht, -⟩, hyear⟩
    refine ⟨ht, ?_, hyear⟩
    by_cases hsame : t.month = 1
    · have hindex : first.monthIndex = t.monthIndex :=
        Instant.monthIndex_eq_iff.mpr ⟨hy.trans hyear.symm, hmonth.trans hsame.symm⟩
      have hfrom : first.dayOfMonth ≤ t.dayOfMonth := by
        rw [hday]
        exact t.one_le_dayOfMonth
      exact hfirst t (Instant.day_le_of_dayOfMonth_le hindex hfrom)
    · have hbounds := t.month_bounds
      exact Int.le_of_lt (Instant.second_lt_of_month_lt (hy.trans hyear.symm) (by omega))
  · rintro ⟨ht, hle, hyear⟩
    exact ⟨⟨ht, Int.le_trans (Int.le_of_lt hstart) hle⟩, hyear⟩

/-! ### The occurrences -/

/-- The year of an instant is one of the pattern, if any year of the pattern is not earlier. -/
def CanBegin (p : Pattern) (start : Instant) : Prop :=
  ∀ y ∈ p.years, start.year ≤ y → ∃ y' ∈ p.years, start.year = (y' : Nat)

theorem first_inYears (hp : p.WellFormed) {year : Nat} (hyear : start.year = year)
    (hbegin : p.CanBegin start) :
    First Instant.second (fun t => p.Matches t ∧ start.second ≤ t.second)
      ((p.years.filter (year ≤ ·)).zipIdx.findSome? fun (y, i) =>
        p.firstInYear? y (if i = 0 then placeOf start else newYear)) := by
  have hasc := hp.years.pairwise.filter (fun y => decide (year ≤ y))
  refine First.findSome? (fun t => t.year.toNat) Prod.fst ?_ ?_ ?_ ?_
  · rw [List.zipIdx_map_fst]
    exact hasc
  · rintro a b ⟨ha, -⟩ ⟨hb, -⟩ hlt
    exact Int.le_of_lt (Instant.second_lt_of_year_lt (by omega))
  · rintro t ⟨ht, hle⟩
    obtain ⟨y, hy, heq⟩ := ht.year
    have hfrom : start.year ≤ t.year := Instant.year_le hle
    rw [List.zipIdx_map_fst, List.mem_filter, decide_eq_true_eq, heq, Int.toNat_natCast]
    exact ⟨hy, by omega⟩
  · rintro ⟨y, i⟩ hyi
    obtain ⟨hy, hle⟩ := List.mem_filter.mp
      (List.mem_of_getElem? (List.mem_zipIdx_iff_getElem?.mp hyi))
    have hle : year ≤ y := of_decide_eq_true hle
    obtain ⟨y', hin, hy'⟩ := hbegin y hy (by omega)
    obtain rfl : y' = year := by omega
    have hplace := ite_index hasc hyi
      (fun m hm => of_decide_eq_true (List.mem_filter.mp hm).2) (placeOf start) newYear
    rw [if_pos (List.mem_filter.mpr ⟨hin, decide_eq_true (Nat.le_refl y')⟩)] at hplace
    have hnat : ∀ t, p.Matches t → (t.year.toNat = y ↔ t.year = y) := by
      intro t ht
      have := ht.year_nonneg
      omega
    simp only [hplace]
    by_cases hsame : y = y'
    · subst hsame
      rw [if_pos rfl]
      refine (first_inYear hp hyear hy).congr fun t => ?_
      rw [hyear, and_assoc]
      exact and_congr_right fun ht => and_congr_right fun _ => hnat t ht
    · rw [if_neg hsame]
      refine (first_inLaterYear hp hy (by omega : start.year < y)).congr fun t => ?_
      rw [and_assoc, and_assoc]
      exact and_congr_right fun ht => and_congr_right fun _ => hnat t ht

theorem first_next (hp : p.WellFormed)
    (hbegin : ∀ start, after.addSeconds? 1 = some start → p.CanBegin start) :
    First Instant.second (fun t => p.Matches t ∧ after.second < t.second) (p.next? after) := by
  unfold next?
  cases hstart : after.addSeconds? 1 with
  | none =>
    have hend := (after.addSeconds?_isSome_iff (n := 1) (by decide)).not.mp (by rw [hstart]; decide)
    rintro t ⟨-, hlt⟩
    have := t.lt_end
    omega
  | some start =>
    have hsecond : start.second = after.second + 1 :=
      Instant.second_of_addSeconds? hstart (by decide)
    have hbegin := hbegin start hstart
    simp only
    split_ifs with hnegative
    · rintro t ⟨ht, hlt⟩
      obtain ⟨y, hy, heq⟩ := ht.year
      obtain ⟨y', -, heq'⟩ := hbegin y hy (by omega)
      omega
    · have hyear : start.year = start.year.toNat :=
        (Int.toNat_of_nonneg (Int.not_lt.mp hnegative)).symm
      refine (first_inYears hp hyear hbegin).congr fun t => ?_
      rw [hsecond, Int.add_one_le_iff]

/-- The occurrences after an instant ascend and are the matches that are later. -/
structure ExactAfter (p : Pattern) (after : Instant) : Prop where
  pairwise : (p.occurrences after).toList.Pairwise (· < ·)
  mem_iff : ∀ t, t ∈ (p.occurrences after).toList ↔ p.Matches t ∧ after < t

theorem Matches.lt_iff (ht : p.Matches t) : after < t ↔ after.second < t.second := by
  rw [Instant.lt_def, ht.nano]
  omega

theorem occurrences_of_none (h : p.next? after = none) : p.occurrences after = .nil := by
  rw [occurrences]
  split
  · rfl
  · rename_i heq
    rw [h] at heq
    cases heq

theorem occurrences_of_some (h : p.next? after = some t) :
    p.occurrences after =
      .cons t fun _ => if after.second < t.second then p.occurrences t else .nil := by
  rw [occurrences]
  split
  · rename_i heq
    rw [h] at heq
    cases heq
  · rename_i heq
    rw [h] at heq
    cases heq
    rfl

theorem matches_of_mem_occurrences (h : t ∈ (p.occurrences after).toList) : p.Matches t := by
  induction after using occurrences.induct p with
  | case1 after hnone =>
    rw [occurrences_of_none hnone] at h
    cases h
  | case2 after next hsome ih =>
    rw [occurrences_of_some hsome, LazyList.toList_cons, List.mem_cons] at h
    rcases h with rfl | h
    · exact matches_of_next? hsome
    · split_ifs at h with hlt
      · exact ih hlt h
      · cases h

theorem canBegin_of_all (hall : p.years = Field.years.all) (hafter : -1 ≤ after.second)
    (hstart : after.addSeconds? 1 = some start) : p.CanBegin start := by
  intro y hy hle
  have hsecond := Instant.second_of_addSeconds? hstart (by decide)
  have hepoch : Instant.epoch.second ≤ start.second := by
    rw [hsecond]
    exact Int.add_le_add_right hafter 1
  have hyear : 1970 ≤ start.year := Instant.year_le hepoch
  rw [hall, Field.all, List.mem_range'_1] at hy
  refine ⟨start.year.toNat, ?_, by omega⟩
  rw [hall, Field.all, List.mem_range'_1]
  simp only [Field.least, Field.greatest] at hy ⊢
  omega

/-- From the last second of 1969 on the occurrences of a pattern with all years are the matches
that are later, in their order. -/
theorem exactAfter (hp : p.WellFormed) (hall : p.years = Field.years.all)
    (hafter : -1 ≤ after.second) : p.ExactAfter after := by
  induction after using occurrences.induct p with
  | case1 after hnone =>
    have hfirst := first_next hp fun start => canBegin_of_all hall hafter
    rw [hnone] at hfirst
    have hnil : (p.occurrences after).toList = [] := by
      rw [occurrences_of_none hnone]
      rfl
    constructor
    · rw [hnil]
      exact List.Pairwise.nil
    · intro t
      rw [hnil]
      refine iff_of_false List.not_mem_nil ?_
      rintro ⟨ht, hlt⟩
      exact hfirst t ⟨ht, ht.lt_iff.mp hlt⟩
  | case2 after next hsome ih =>
    have hfirst := first_next hp fun start => canBegin_of_all hall hafter
    rw [hsome] at hfirst
    obtain ⟨⟨hnext, hlt⟩, hleast⟩ := hfirst
    have hrest := ih hlt (by omega)
    have hcons : (p.occurrences after).toList = next :: (p.occurrences next).toList := by
      rw [occurrences_of_some hsome, LazyList.toList_cons, if_pos hlt]
    constructor
    · rw [hcons]
      exact hrest.pairwise.cons fun t ht => ((hrest.mem_iff t).mp ht).2
    · intro t
      rw [hcons, List.mem_cons, hrest.mem_iff]
      constructor
      · rintro (rfl | ⟨ht, hlater⟩)
        · exact ⟨hnext, hnext.lt_iff.mpr hlt⟩
        · exact ⟨ht, Instant.lt_trans (hnext.lt_iff.mpr hlt) hlater⟩
      · rintro ⟨ht, hlater⟩
        -- Nothing between `after` and `next` matches, so a later match is `next` or after it.
        rcases Int.lt_or_eq_of_le (hleast t ⟨ht, ht.lt_iff.mp hlater⟩) with hafter' | heq
        · exact Or.inr ⟨ht, ht.lt_iff.mpr hafter'⟩
        · exact Or.inl (Instant.ext heq.symm (ht.nano.trans hnext.nano.symm))

end RunScheduler.Cron.Pattern
