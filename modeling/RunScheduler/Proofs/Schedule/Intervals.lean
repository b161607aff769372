import RunScheduler.Proofs.Schedule.Window

/-!
# Schedules of intervals

A schedule without a window that recurs every so many seconds has, after an instant, exactly those
of the instants `anchor + k * every` that are later, as far as the calendar goes, in ascending
order. This holds for any fractions of a second and over the whole calendar
(`occurrences_of_interval`).

Nor does an expansion leave the signed numbers of 64 bits on its way (`Computes.fitsInt64`). The
first index that it tries is at most a step beyond the distance from the anchor, and it tries
another one only after an instant that the calendar has (`Tries`). So whatever it multiplies by the
length of a step, the product is at most the length of the calendar and a step
(`mul_le_of_tries`).
-/

namespace RunScheduler

/-- A signed number of 64 bits. -/
def FitsInt64 (n : Int) : Prop :=
  -9223372036854775808 ≤ n ∧ n < 9223372036854775808

namespace Interval

variable {i : Interval} {k : Nat} {t after : Instant}

/-! ### What is computed -/

/-- An expansion gets as far as this index: it is not before the first one, and the calendar has
the instants of all indices between them. -/
def Tries (i : Interval) (after : Instant) (k : Nat) : Prop :=
  i.firstIndex after none ≤ k ∧
    ∀ j, i.firstIndex after none ≤ j → j < k → (i.nth? j).isSome = true

/-- The numbers that an expansion computes on its way. -/
inductive Computes (i : Interval) (after : Instant) : Int → Prop
  /-- The length of a step, in milliseconds as all lengths. -/
  | step : Computes i after (i.every * 1000)
  /-- The distance from the anchor, first that of the seconds alone. -/
  | seconds (h : i.anchor ≤ after) : Computes i after ((after.second - i.anchor.second) * 1000)
  | distance (h : i.anchor ≤ after) : Computes i after (after.millisSince i.anchor)
  | index : Computes i after (i.indexAfter after)
  /-- The distance of an index that is tried, its second, and the index after it. -/
  | shift {k : Nat} (h : i.Tries after k) : Computes i after (k * (i.every * 1000))
  | second {k : Nat} (h : i.Tries after k) : Computes i after (i.anchor.second + k * i.every)
  | next {k : Nat} (h : i.Tries after k) : Computes i after (k + 1)

/-! ### Bounds -/

/-- The length of the calendar in seconds. -/
def calendarSeconds : Int := (Calendar.lastDay + 1 - Calendar.firstDay) * 86400

theorem le_mul_step (i : Interval) {n : Int} (hn : 0 ≤ n) : n ≤ n * (i.every * 1000) := by
  have hstep : (1 : Int) ≤ i.every * 1000 := by
    have := i.every_pos
    omega
  have hle := Int.mul_le_mul_of_nonneg_left hstep hn
  rwa [Int.mul_one] at hle

theorem second_sub_lt (t u : Instant) : t.second - u.second < calendarSeconds := by
  have hend := t.lt_end
  have hfirst := u.first_le
  unfold calendarSeconds
  omega

theorem millisSince_bounds (hanchor : i.anchor.nano < 1000000000)
    (hafter : after.nano < 1000000000) (hle : i.anchor ≤ after) :
    0 ≤ after.millisSince i.anchor ∧
      after.millisSince i.anchor ≤ (after.second - i.anchor.second + 1) * 1000 := by
  have hleap : ∀ {u : Instant}, u.nano < 1000000000 → ¬ u.isLeap = true := fun hu hleap =>
    Nat.not_lt.mpr (of_decide_eq_true hleap) hu
  have hnanos : after.nanosSince i.anchor =
      (after.second - i.anchor.second) * 1000000000 + ((after.nano : Int) - i.anchor.nano) := by
    unfold Instant.nanosSince
    dsimp only
    rw [if_neg fun h => hleap hanchor h.2, if_neg fun h => hleap hafter h.2, Int.add_zero]
  rw [Instant.le_def] at hle
  unfold Instant.millisSince
  rw [hnanos]
  refine ⟨Int.tdiv_nonneg (by omega) (by decide), ?_⟩
  have hunits : (after.second - i.anchor.second + 1) * 1000 =
      ((after.second - i.anchor.second + 1) * 1000 * 1000000).tdiv 1000000 :=
    (Int.mul_tdiv_cancel _ (by decide)).symm
  rw [hunits]
  exact Int.tdiv_le_tdiv (by decide) (by omega)

theorem indexAfter_bounds (hanchor : i.anchor.nano < 1000000000)
    (hafter : after.nano < 1000000000) :
    0 ≤ i.indexAfter after ∧
      i.indexAfter after * (i.every * 1000) ≤ (calendarSeconds + i.every) * 1000 := by
  have hspan := second_sub_lt after i.anchor
  unfold indexAfter
  split_ifs with hbefore
  · rw [Int.zero_mul]
    unfold calendarSeconds Calendar.lastDay Calendar.firstDay
    omega
  · obtain ⟨hnonneg, hle⟩ := millisSince_bounds hanchor hafter (Instant.not_lt.mp hbefore)
    have hquotient : 0 ≤ (after.millisSince i.anchor).tdiv (i.every * 1000) :=
      Int.tdiv_nonneg hnonneg (by omega)
    have hproduct := Int.mul_tdiv_self_le (k := (i.every : Int) * 1000) hnonneg
    rw [Int.mul_comm] at hproduct
    rw [Int.add_mul, Int.one_mul]
    exact ⟨by omega, by omega⟩

theorem mul_le_of_tries (hanchor : i.anchor.nano < 1000000000)
    (hafter : after.nano < 1000000000) (h : i.Tries after k) :
    (k : Int) * (i.every * 1000) ≤ (calendarSeconds + i.every) * 1000 := by
  obtain ⟨hnonneg, hfirst⟩ := indexAfter_bounds hanchor hafter
  have hindex : (i.firstIndex after none : Int) = i.indexAfter after :=
    Int.toNat_of_nonneg hnonneg
  rcases Nat.lt_or_eq_of_le h.1 with hlt | heq
  · -- The calendar has the instant one step before.
    obtain ⟨t, ht⟩ := Option.isSome_iff_exists.mp (h.2 (k - 1) (by omega) (by omega))
    have hlast := second_of_nth? ht
    have hanchorFirst := i.anchor.first_le
    obtain ⟨j, rfl⟩ : ∃ j, k = j + 1 := ⟨k - 1, by omega⟩
    rw [Nat.add_sub_cancel] at hlast
    rw [Int.natCast_add, Int.add_mul, ← Int.mul_assoc]
    unfold calendarSeconds
    omega
  · rw [← heq, hindex]
    exact hfirst

/-- No number that an expansion computes is too great for 64 bits. -/
theorem Computes.fitsInt64 (hanchor : i.anchor.nano < 1000000000)
    (hafter : after.nano < 1000000000) (hevery : i.every ≤ Schedule.maxInterval) {n : Int}
    (h : i.Computes after n) : FitsInt64 n := by
  have hcalendar : calendarSeconds = 16544868105600 := rfl
  have hspan := second_sub_lt after i.anchor
  unfold Schedule.maxInterval at hevery
  unfold FitsInt64
  cases h with
  | step => omega
  | seconds hle =>
    rw [Instant.le_def] at hle
    omega
  | distance hle =>
    have hmillis := millisSince_bounds hanchor hafter hle
    omega
  | index =>
    obtain ⟨hnonneg, hindex⟩ := indexAfter_bounds hanchor hafter
    have hsmall := i.le_mul_step hnonneg
    omega
  | @shift k h =>
    have hle := mul_le_of_tries hanchor hafter h
    have hsmall := i.le_mul_step (Int.natCast_nonneg k)
    omega
  | @second k h =>
    have hle := mul_le_of_tries hanchor hafter h
    have hnonneg : 0 ≤ (k : Int) * i.every := Int.mul_nonneg (by omega) (by omega)
    have hend := i.anchor.lt_end
    have hfirst := i.anchor.first_le
    rw [← Int.mul_assoc] at hle
    unfold Calendar.lastDay at hend
    unfold Calendar.firstDay at hfirst
    omega
  | @next k h =>
    have hle := mul_le_of_tries hanchor hafter h
    have hsmall := i.le_mul_step (Int.natCast_nonneg k)
    omega

end Interval

namespace Schedule

variable {s : Schedule} {everySeconds : UInt64} {anchor : Option Instant} {after : Instant}

theorem timing_of_interval (hs : s.definition = { recurrence := .interval everySeconds anchor }) :
    everySeconds.toNat ≤ maxInterval ∧ ∃ hpos : 0 < everySeconds.toNat,
      s.timing = .interval ⟨anchor.getD .epoch, everySeconds.toNat, hpos⟩ := by
  have hcompiled := s.compiled
  rw [hs] at hcompiled
  change compileRecurrence none (.interval everySeconds anchor) = _ at hcompiled
  rw [compileRecurrence] at hcompiled
  split_ifs at hcompiled with haccepted
  exact ⟨haccepted.2, haccepted.1, (Except.ok.inj hcompiled).symm⟩

/-- **A schedule of an interval has its instants and no others.** Without a window, and with
neither the anchor nor `after` in a leap second, the occurrences after `after` are finitely many and
ascend, and they are the instants of the calendar that are later and a whole number of steps from
the anchor on. All that is computed on the way has 64 bits. -/
theorem occurrences_of_interval
    (hs : s.definition = { recurrence := .interval everySeconds anchor })
    (hanchor : ∀ a ∈ anchor, a.isLeap = false) (hafter : after.isLeap = false) :
    let first := anchor.getD .epoch
    (s.occurrences after).toList.Pairwise (· < ·) ∧
      (∀ t, t ∈ (s.occurrences after).toList ↔ after < t ∧
        ∃ k : Nat, t.second = first.second + k * everySeconds.toNat ∧ t.nano = first.nano) ∧
      ∃ i : Interval, s.timing = .interval i ∧ i.anchor = first ∧
        i.every = everySeconds.toNat ∧ ∀ n, i.Computes after n → FitsInt64 n := by
  intro first
  have hplain : ∀ {t : Instant}, t.isLeap = false → t.nano < 1000000000 :=
    fun h => Nat.not_le.mp (of_decide_eq_false h)
  have hfirst : first.nano < 1000000000 := by
    cases anchor with
    | none => decide
    | some a => exact hplain (hanchor a rfl)
  obtain ⟨hle, hpos, htiming⟩ := timing_of_interval hs
  have hexact : s.timing.SearchedExactly s.start after := by
    intro p hp
    rw [htiming] at hp
    cases hp
  have hwindow : s.start = none ∧ s.stop = none := by
    rw [start, stop, hs]
    exact ⟨rfl, rfl⟩
  refine ⟨pairwise_occurrences hexact, fun t => ?_, _, htiming, rfl, rfl,
    fun n => Interval.Computes.fitsInt64 hfirst (hplain hafter) hle⟩
  rw [toList_occurrences s hexact, List.mem_filter, hwindow.1, hwindow.2, htiming]
  simp only [notBefore, notAfter, Bool.and_true, decide_eq_true_eq]
  rw [and_comm]
  have hnone {P : Instant → Prop} : ∀ a ∈ (none : Option Instant), P a := fun a h =>
    absurd h (Option.not_mem_none a)
  refine and_congr_right fun hlt => ?_
  refine (Interval.mem_occurrences_iff (hplain hafter) hnone hlt hnone).trans
    (exists_congr fun k => ?_)
  rw [Interval.nth?]
  exact Instant.addSeconds?_eq_some_iff hfirst

/-- The last nanosecond of the first second of the calendar. -/
def dawn : Instant := (Instant.of? (Calendar.firstDay * 86400) 999999999).getD .epoch

/-- Every hundred years of 366 days, from the beginning of the calendar on. -/
def everyHundredYears : Schedule :=
  ⟨{ recurrence := .interval 3162240000 (some dawn) },
    .interval ⟨dawn, 3162240000, by decide⟩, rfl⟩

/-- After 1970 the next instant is the one with index 2636. -/
theorem occurrences_of_everyHundredYears :
    everyHundredYears.definition = { recurrence := .interval 3162240000 (some dawn) } ∧
      dawn.isLeap = false ∧ Instant.epoch.isLeap = false ∧
      ∀ t, t.second = 1063411200 → t.nano = 999999999 →
        t ∈ (everyHundredYears.occurrences .epoch).toList := by
  have hdawn : ∀ a ∈ some dawn, a.isLeap = false := by
    rintro a ⟨⟩
    decide
  have hepoch : Instant.epoch.isLeap = false := by decide
  have hoccurrences := (occurrences_of_interval (s := everyHundredYears) rfl hdawn hepoch).2.1
  refine ⟨rfl, by decide, hepoch, fun t hsecond hnano => (hoccurrences t).mpr ⟨?_, 2636, ?_, hnano⟩⟩
  · rw [Instant.lt_def, hsecond]
    exact Or.inl (by decide)
  · rw [hsecond]
    decide

end Schedule

end RunScheduler
