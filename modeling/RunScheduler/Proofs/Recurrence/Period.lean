import RunScheduler.Proofs.Instant.Parts
import RunScheduler.Recurrence.Rule

/-!
# The periods of a rule

Every frequency cuts time into units: minutes, hours, days, weeks from Monday on, months
(`Frequency.unitOf`). All candidates of a period lie in one unit, which is as many units after the
start's as the period's number times the interval (`unitOf_of_mem_candidates`). So the candidates
of a later period are later (`lt_of_mem_candidates`).

Periods end where the calendar does (`candidates_eq_none_of_le`), and the periods that expansion
skips have no candidate after the instant it skips to (`lt_of_lt_skipped`), although they are
counted by nominal lengths.
-/

namespace RunScheduler

/-- The unit of time that an instant lies in, counted from 1970. Weeks begin on Mondays. -/
def Frequency.unitOf (f : Frequency) (t : Instant) : Int :=
  match f with
  | .minutely => t.second / 60
  | .hourly => t.second / 3600
  | .daily => t.day
  | .weekly => (t.day + 3) / 7
  | .monthly => t.monthIndex

theorem Frequency.unitOf_le (f : Frequency) {t u : Instant} (h : t ≤ u) :
    f.unitOf t ≤ f.unitOf u := by
  have hsecond := Instant.second_le h
  have hday := Instant.day_le hsecond
  cases f with
  | minutely => exact Int.ediv_le_ediv (by decide) hsecond
  | hourly => exact Int.ediv_le_ediv (by decide) hsecond
  | daily => exact hday
  | weekly => exact Int.ediv_le_ediv (by decide) (by omega)
  | monthly => exact Instant.monthIndex_le hsecond

theorem Frequency.lt_of_unitOf_lt {f : Frequency} {t u : Instant} (h : f.unitOf t < f.unitOf u) :
    t < u := by
  by_contra hle
  have := f.unitOf_le (Instant.not_lt.mp hle)
  omega

namespace Rule

variable {r : Rule} {start after t u : Instant} {k k' : Nat} {l l' : List Instant}

/-! ### Ascending lists -/

theorem mem_insertOnce : u ∈ insertOnce t l ↔ u = t ∨ u ∈ l := by
  induction l with
  | nil => simp [insertOnce]
  | cons v l ih =>
    unfold insertOnce
    split_ifs with hlt heq
    · simp
    · subst heq
      simp
    · rw [List.mem_cons, ih, List.mem_cons]
      exact or_left_comm

theorem mem_ascending : t ∈ ascending l ↔ t ∈ l := by
  induction l with
  | nil => rfl
  | cons u l ih =>
    have hcons : ascending (u :: l) = insertOnce u (ascending l) := rfl
    rw [hcons, mem_insertOnce, ih, List.mem_cons]

theorem pairwise_insertOnce (h : l.Pairwise (· < ·)) : (insertOnce t l).Pairwise (· < ·) := by
  induction l with
  | nil => simp [insertOnce]
  | cons v l ih =>
    have hfirst : ∀ w ∈ l, v < w := fun _ hmem => List.rel_of_pairwise_cons h hmem
    unfold insertOnce
    split_ifs with hlt heq
    · refine h.cons fun w hmem => ?_
      rcases List.mem_cons.mp hmem with rfl | hmem
      · exact hlt
      · exact Instant.lt_trans hlt (hfirst w hmem)
    · exact h
    · refine (ih h.of_cons).cons fun w hmem => ?_
      rcases mem_insertOnce.mp hmem with rfl | hmem
      · rw [Instant.lt_def] at hlt ⊢
        have hne : ¬ (w.second = v.second ∧ w.nano = v.nano) := fun h =>
          heq (Instant.ext h.1 h.2)
        omega
      · exact hfirst w hmem

theorem pairwise_ascending (l : List Instant) : (ascending l).Pairwise (· < ·) := by
  induction l with
  | nil => exact List.Pairwise.nil
  | cons u l ih => exact pairwise_insertOnce ih

/-! ### The unit of a period -/

theorem day_of_mem_timesOn {day : Int} (h : t ∈ r.timesOn start day) : t.day = day := by
  unfold timesOn at h
  obtain ⟨hour, -, h⟩ := List.mem_flatMap.mp h
  obtain ⟨minute, -, h⟩ := List.mem_filterMap.mp h
  exact (Instant.parts_of_at? h).1

theorem mondayOf_eq (t : Instant) : mondayOf t = (t.day + 3) / 7 * 7 - 3 := by
  unfold mondayOf Instant.weekday Calendar.weekdayOf
  rw [Weekday.index_ofIndex]
  omega

theorem unitOf_of_mem_offers (h : r.offers start k = some l) (ht : t ∈ l) :
    r.frequency.unitOf t = r.frequency.unitOf start + (k * r.interval : Nat) := by
  unfold offers at h
  generalize k * r.interval = step at h ⊢
  cases hf : r.frequency with
  | minutely =>
    simp only [hf] at h
    obtain ⟨u, hu, rfl⟩ := Option.map_eq_some_iff.mp h
    rw [List.mem_singleton.mp ht]
    have hsecond := Instant.second_of_addSeconds? hu (by omega)
    show u.second / 60 = start.second / 60 + step
    omega
  | hourly =>
    simp only [hf] at h
    obtain ⟨u, hu, rfl⟩ := Option.map_eq_some_iff.mp h
    have hsecond := Instant.second_of_addSeconds? hu (by omega)
    have hhour : t.second / 3600 = u.second / 3600 := by
      split_ifs at ht with hminutes
      · rw [List.mem_singleton.mp ht]
      · obtain ⟨minute, -, hat⟩ := List.mem_filterMap.mp ht
        obtain ⟨hat, -⟩ := Option.filter_eq_some_iff.mp hat
        obtain ⟨⟨-, hm, hs⟩, ht', -⟩ := Instant.at?_eq_some_iff.mp hat
        have hu' := u.second_eq_parts
        have := u.minute_lt
        have := u.secondOfMinute_lt
        omega
    show t.second / 3600 = start.second / 3600 + step
    omega
  | daily =>
    simp only [hf] at h
    split_ifs at h with hday
    cases h
    exact day_of_mem_timesOn ht
  | weekly =>
    simp only [hf] at h
    split_ifs at h with hweek
    cases h
    obtain ⟨w, -, ht⟩ := List.mem_flatMap.mp ht
    have hday := day_of_mem_timesOn ht
    have hw := w.index_lt
    rw [mondayOf_eq] at hday
    show (t.day + 3) / 7 = (start.day + 3) / 7 + step
    omega
  | monthly =>
    simp only [hf] at h
    split_ifs at h with hmonth
    cases h
    obtain ⟨day, -, ht⟩ := List.mem_flatMap.mp ht
    split at ht
    · cases ht
    · rename_i number hnumber
      obtain ⟨-, hdate, rfl⟩ := Calendar.dayNumber?_eq_some_iff.mp hnumber
      obtain ⟨hyear, hmonth, -⟩ := Instant.date_of_day_eq hdate (day_of_mem_timesOn ht)
      show t.monthIndex = start.monthIndex + step
      unfold Instant.monthIndex Calendar.monthIndex
      rw [hyear, hmonth]
      omega

theorem unitOf_of_mem_candidates (h : r.candidates start k = some l) (ht : t ∈ l) :
    r.frequency.unitOf t = r.frequency.unitOf start + (k * r.interval : Nat) := by
  obtain ⟨offered, hoffers, rfl⟩ := Option.map_eq_some_iff.mp h
  exact unitOf_of_mem_offers hoffers (List.mem_filter.mp (mem_ascending.mp ht)).1

theorem pairwise_candidates (h : r.candidates start k = some l) : l.Pairwise (· < ·) := by
  obtain ⟨offered, -, rfl⟩ := Option.map_eq_some_iff.mp h
  exact pairwise_ascending _

theorem lt_of_mem_candidates (h : r.candidates start k = some l)
    (h' : r.candidates start k' = some l') (hlt : k < k') (ht : t ∈ l) (hu : u ∈ l') : t < u := by
  apply Frequency.lt_of_unitOf_lt (f := r.frequency)
  rw [unitOf_of_mem_candidates h ht, unitOf_of_mem_candidates h' hu]
  have := Nat.mul_lt_mul_of_pos_right hlt r.interval_pos
  omega

/-! ### The end of the calendar -/

theorem inCalendar_iff {day : Int} :
    inCalendar day = true ↔ Calendar.firstDay ≤ day ∧ day ≤ Calendar.lastDay := by
  unfold inCalendar
  rw [Bool.and_eq_true, decide_eq_true_eq, decide_eq_true_eq]

theorem offers_isSome_of_le (hle : k ≤ k') (h : (r.offers start k').isSome = true) :
    (r.offers start k).isSome = true := by
  have hstep : k * r.interval ≤ k' * r.interval := Nat.mul_le_mul_right _ hle
  unfold offers at h ⊢
  generalize k * r.interval = step at hstep ⊢
  generalize k' * r.interval = step' at hstep h
  cases hf : r.frequency with
  | minutely =>
    simp only [hf, Option.isSome_map] at h ⊢
    rw [Instant.addSeconds?_isSome_iff (by omega)] at h ⊢
    omega
  | hourly =>
    simp only [hf, Option.isSome_map] at h ⊢
    rw [Instant.addSeconds?_isSome_iff (by omega)] at h ⊢
    omega
  | daily =>
    have hday := start.day_bounds
    simp only [hf, Option.isSome_ite, inCalendar_iff] at h ⊢
    omega
  | weekly =>
    simp only [hf, Option.isSome_ite, Bool.and_eq_true, inCalendar_iff, List.all_eq_true] at h ⊢
    obtain ⟨⟨hmonday, hweek⟩, hdays⟩ := h
    refine ⟨⟨hmonday, by omega⟩, fun w hw => ?_⟩
    have := hdays w hw
    omega
  | monthly =>
    have hyear := Calendar.yearOf_bounds start.day_bounds.1 start.day_bounds.2
    have hmonth : ∀ n : Int, 1 ≤ (n % 12).toNat + 1 ∧ (n % 12).toNat + 1 ≤ 12 := by
      intro n
      omega
    simp only [hf, Option.isSome_ite, Calendar.dayNumber?_one_isSome_iff (hmonth _)] at h ⊢
    unfold Instant.year at h ⊢
    omega

theorem candidates_eq_none_of_le (hle : k ≤ k') (h : r.candidates start k = none) :
    r.candidates start k' = none := by
  rw [candidates, Option.map_eq_none_iff] at h ⊢
  rw [← Option.not_isSome_iff_eq_none] at h ⊢
  exact fun h' => h (offers_isSome_of_le hle h')

/-! ### Skipped periods -/

theorem unitsBetween_le (h : start ≤ after) :
    (r.unitsBetween start after : Int) ≤
      r.frequency.unitOf after - r.frequency.unitOf start + 1 := by
  have hunits := r.frequency.unitOf_le h
  have hsecond := Instant.second_le h
  -- Leap seconds add at most two seconds to the distance, hence at most one unit.
  have hbound : ∀ f : Frequency, ((after.secondsSince start).tdiv (Frequency.seconds f)).toNat ≤
      (after.second - start.second + 2) / Frequency.seconds f := by
    intro f
    have hquotient : (after.secondsSince start).tdiv (Frequency.seconds f) ≤
        (after.second - start.second + 2) / Frequency.seconds f := by
      rw [← Int.tdiv_eq_ediv_of_nonneg (by omega)]
      exact Int.tdiv_le_tdiv (by cases f <;> decide) (Instant.secondsSince_le h)
    have hnonneg : 0 ≤ (after.second - start.second + 2) / (Frequency.seconds f : Int) :=
      Int.ediv_nonneg (by omega) (by omega)
    omega
  unfold unitsBetween
  cases hf : r.frequency with
  | minutely =>
    refine Int.le_trans (hbound .minutely) ?_
    show _ / 60 ≤ after.second / 60 - start.second / 60 + 1
    omega
  | hourly =>
    refine Int.le_trans (hbound .hourly) ?_
    show _ / 3600 ≤ after.second / 3600 - start.second / 3600 + 1
    omega
  | daily =>
    refine Int.le_trans (hbound .daily) ?_
    show _ / 86400 ≤ after.second / 86400 - start.second / 86400 + 1
    omega
  | weekly =>
    refine Int.le_trans (hbound .weekly) ?_
    show _ / 604800 ≤ (after.second / 86400 + 3) / 7 - (start.second / 86400 + 3) / 7 + 1
    omega
  | monthly =>
    rw [hf] at hunits
    have hmonth := after.month_bounds
    have hmonth' := start.month_bounds
    change start.monthIndex ≤ after.monthIndex at hunits
    show _ ≤ after.monthIndex - start.monthIndex + 1
    unfold Instant.monthIndex Calendar.monthIndex at hunits ⊢
    simp only
    omega

/-- A skipped period has no candidate after the instant that expansion skips to. -/
theorem lt_of_lt_skipped (hk : k < r.skipped start after) (h : r.candidates start k = some l)
    (ht : t ∈ l) : t < after := by
  unfold skipped at hk
  split_ifs at hk with hnone
  · omega
  have hlater : start ≤ after := Instant.le_of_lt (Instant.not_le.mp fun hle => hnone (Or.inr hle))
  have hunits := unitsBetween_le (r := r) hlater
  have htwo : (k + 2) * r.interval ≤ r.unitsBetween start after :=
    (Nat.le_div_iff_mul_le r.interval_pos).mp (by omega)
  have hinterval := r.interval_pos
  apply Frequency.lt_of_unitOf_lt (f := r.frequency)
  rw [unitOf_of_mem_candidates h ht]
  rw [Nat.add_mul] at htwo
  omega

end Rule

end RunScheduler
