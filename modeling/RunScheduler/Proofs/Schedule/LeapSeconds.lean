import RunScheduler.Instant.Reader
import RunScheduler.Proofs.Schedule.Intervals

/-!
# Intervals around leap seconds

The instants of an interval are counted by their distance from the anchor, and a leap second counts
in a distance though a shift does not step on it. So an expansion that begins in a leap second may
begin one instant too late: it passes over the instant of the interval that comes right after the
leap second, unless the leap second is at an earlier time of day than the anchor or not as far into
its second as the anchor is (`PassesOver`). It passes over nothing else
(`mem_occurrences_iff_not_passesOver`).

Which instants are passed over is read off the distance in nanoseconds, since the index that is
computed from whole milliseconds passes over an instant exactly if the distance reaches it
(`Interval.lt_indexAfter_iff`).
-/

namespace RunScheduler

/-- An expansion from the anchor on that begins after a leap second passes over this instant. The
bound on the nanoseconds says that `after` is in a leap second, and how far. -/
structure PassesOver (anchor after t : Instant) : Prop where
  anchor_le : anchor ≤ after
  secondOfDay_le : anchor.secondOfDay ≤ after.secondOfDay
  nano_le : anchor.nano + 1000000000 ≤ after.nano
  second_eq : t.second = after.second + 1

namespace Interval

variable {i : Interval} {k : Nat} {t after : Instant}

/-- The distance from an anchor outside leap seconds. A leap second at an earlier time of day does
not count in it. -/
theorem nanosSince_anchor (hplain : i.anchor.nano < 1000000000) :
    after.nanosSince i.anchor =
      (after.second - i.anchor.second) * 1000000000 + ((after.nano : Int) - i.anchor.nano) -
        if after.secondOfDay < i.anchor.secondOfDay ∧ after.isLeap = true then 1000000000
        else 0 := by
  have hanchor : ¬ i.anchor.isLeap = true := fun hleap =>
    Nat.not_lt.mpr (of_decide_eq_true hleap) hplain
  unfold Instant.nanosSince
  dsimp only
  rw [if_neg fun h => hanchor h.2]
  split_ifs <;> omega

theorem secondOfDay_eq_of_second_eq {t u : Instant} (h : t.second = u.second) :
    t.secondOfDay = u.secondOfDay := by
  unfold Instant.secondOfDay
  rw [h]

theorem nanosSince_anchor_nonneg (hplain : i.anchor.nano < 1000000000) (hle : i.anchor ≤ after) :
    0 ≤ after.nanosSince i.anchor := by
  rw [nanosSince_anchor hplain]
  have hsame := secondOfDay_eq_of_second_eq (t := after) (u := i.anchor)
  rw [Instant.le_def] at hle
  split_ifs with hearlier
  · have hleap : 1000000000 ≤ after.nano := of_decide_eq_true hearlier.2
    omega
  · omega

/-- An instant is passed over if the distance reaches it. Cutting the distance to milliseconds does
not matter, for the instants are whole seconds apart. -/
theorem lt_indexAfter_iff (hplain : i.anchor.nano < 1000000000) (hle : i.anchor ≤ after) :
    (k : Int) < i.indexAfter after ↔
      (k * i.every : Int) * 1000000000 ≤ after.nanosSince i.anchor := by
  have hnonneg := nanosSince_anchor_nonneg hplain hle
  have hmillis : 0 ≤ after.nanosSince i.anchor / 1000000 := Int.ediv_nonneg hnonneg (by decide)
  have hstep : 0 < (i.every : Int) * 1000 := by
    have := i.every_pos
    omega
  unfold indexAfter Instant.millisSince
  rw [if_neg (Instant.not_lt.mpr hle), Int.tdiv_eq_ediv_of_nonneg hnonneg,
    Int.tdiv_eq_ediv_of_nonneg hmillis, Int.lt_add_one_iff, Int.le_ediv_iff_mul_le hstep,
    Int.le_ediv_iff_mul_le (by decide), ← Int.mul_assoc, Int.mul_assoc (k * i.every)]
  rfl

theorem reaches_iff_passesOver (hplain : i.anchor.nano < 1000000000) (hle : i.anchor ≤ after)
    (h : i.nth? k = some t) (hlt : after < t) :
    (k * i.every : Int) * 1000000000 ≤ after.nanosSince i.anchor ↔
      PassesOver i.anchor after t := by
  obtain ⟨hsecond, hnano⟩ := (Instant.addSeconds?_eq_some_iff hplain).mp h
  have hafter := after.nano_lt
  rw [Instant.lt_def] at hlt
  rw [nanosSince_anchor hplain]
  constructor
  · intro hreaches
    split_ifs at hreaches with hearlier
    · omega
    -- As `after` is earlier, its nanoseconds have to make up for a whole second.
    have hfar : i.anchor.nano + 1000000000 ≤ after.nano := by omega
    have hleap : after.isLeap = true :=
      decide_eq_true (Nat.le_trans (Nat.le_add_left _ _) hfar)
    exact ⟨hle, Nat.not_lt.mp fun hlt => hearlier ⟨hlt, hleap⟩, hfar, by omega⟩
  · rintro ⟨-, hlater, hfar, hnext⟩
    rw [if_neg fun hearlier => Nat.not_le.mpr hearlier.1 hlater]
    omega

theorem mem_occurrences_iff_not_passesOver (hplain : i.anchor.nano < 1000000000)
    (hlt : after < t) :
    t ∈ (i.occurrences after none).toList ↔
      (∃ k, i.nth? k = some t) ∧ ¬ PassesOver i.anchor after t := by
  have hfirst (k : Nat) (h : i.nth? k = some t) :
      i.firstIndex after none ≤ k ↔ ¬ PassesOver i.anchor after t := by
    unfold firstIndex
    dsimp only
    rw [Int.toNat_le, ← Int.not_lt]
    refine not_congr ?_
    by_cases hle : i.anchor ≤ after
    · rw [lt_indexAfter_iff hplain hle]
      exact reaches_iff_passesOver hplain hle h hlt
    · unfold indexAfter
      rw [if_pos (Instant.not_le.mp hle)]
      exact iff_of_false (by omega) fun hpasses => hle hpasses.anchor_le
  refine mem_fromIndex_iff.trans ⟨?_, ?_⟩
  · rintro ⟨k, hk, h⟩
    exact ⟨⟨k, h⟩, (hfirst k h).mp hk⟩
  · rintro ⟨⟨k, h⟩, hpasses⟩
    exact ⟨k, (hfirst k h).mpr hpasses, h⟩

end Interval

namespace Schedule

variable {s : Schedule} {everySeconds : UInt64} {anchor : Option Instant} {i : Interval}
  {after t : Instant}

theorem mem_occurrences_of_timing (htiming : s.timing = .interval i)
    (hwindow : s.start = none ∧ s.stop = none) (hplain : i.anchor.nano < 1000000000) :
    t ∈ (s.occurrences after).toList ↔ after < t ∧
      (∃ k : Nat, t.second = i.anchor.second + k * i.every ∧ t.nano = i.anchor.nano) ∧
      ¬ PassesOver i.anchor after t := by
  have hexact : s.timing.SearchedExactly s.start after := by
    intro p hp
    rw [htiming] at hp
    cases hp
  rw [toList_occurrences s hexact, List.mem_filter, hwindow.1, hwindow.2, htiming]
  simp only [notBefore, notAfter, Bool.and_true, decide_eq_true_eq]
  rw [and_comm]
  refine and_congr_right fun hlt => ?_
  refine (Interval.mem_occurrences_iff_not_passesOver hplain hlt).trans (and_congr_left' ?_)
  exact exists_congr fun k => Instant.addSeconds?_eq_some_iff hplain

/-- **Only what comes right after a leap second is passed over.** Without a window, and with an
anchor outside leap seconds, the occurrences after `after` are the instants that are later and a
whole number of steps from the anchor on, but for one: if `after` is in a leap second, at a time of
day not before that of the anchor and as far into its second as the anchor is or farther, then what
falls into the next second is no occurrence. -/
theorem mem_occurrences_iff_not_afterLeap
    (hs : s.definition = { recurrence := .interval everySeconds anchor })
    (hanchor : ∀ a ∈ anchor, a.isLeap = false) (after t : Instant) :
    let first := anchor.getD .epoch
    t ∈ (s.occurrences after).toList ↔ after < t ∧
      (∃ k : Nat, t.second = first.second + k * everySeconds.toNat ∧ t.nano = first.nano) ∧
      ¬ PassesOver first after t := by
  intro first
  have hfirst : first.nano < 1000000000 := by
    cases anchor with
    | none => decide
    | some a => exact Nat.not_le.mp (of_decide_eq_false (hanchor a rfl))
  obtain ⟨-, hpos, htiming⟩ := timing_of_interval hs
  have hwindow : s.start = none ∧ s.stop = none := by
    rw [start, stop, hs]
    exact ⟨rfl, rfl⟩
  exact mem_occurrences_of_timing htiming hwindow hfirst

/-- Every full and every half hour. -/
def everyHalfHour : Schedule :=
  ⟨{ recurrence := .interval 1800 none }, .interval ⟨.epoch, 1800, by decide⟩, rfl⟩

/-- The leap second at the end of 2016. -/
def leapSecond : Instant := ⟨1483228799, 1000000000, by decide, by decide, by decide, by decide⟩

/-- The beginning of 2017. -/
def newYear : Instant :=
  { Instant.epoch with
    second := 1483228800, first_le := by decide, lt_end := by decide, leap_at_59 := by decide }

/-- From the leap second at the end of 2016 on, the half hour that begins right after it is passed
over and the next one is not. -/
theorem mem_occurrences_iff_of_newYear :
    everyHalfHour.definition = { recurrence := .interval 1800 none } ∧
      (∀ a ∈ (none : Option Instant), a.isLeap = false) ∧
      newYear ∉ (everyHalfHour.occurrences leapSecond).toList ∧
      ∀ t, t.second = 1483230600 → t.nano = 0 →
        t ∈ (everyHalfHour.occurrences leapSecond).toList := by
  have hnone : ∀ a ∈ (none : Option Instant), a.isLeap = false := fun _ h => nomatch h
  have hoccurs (t : Instant) := mem_occurrences_iff_not_afterLeap (s := everyHalfHour) rfl hnone
    leapSecond t
  refine ⟨rfl, hnone, fun hmem => ?_, fun t hsecond hnano => (hoccurs t).mpr ⟨?_, ⟨824017, ?_⟩, ?_⟩⟩
  · exact ((hoccurs newYear).mp hmem).2.2
      ⟨by decide, by decide, by decide, by decide⟩
  · exact Or.inl (by rw [hsecond]; decide)
  · exact ⟨by rw [hsecond]; decide, hnano⟩
  · intro hpasses
    have hnext := hpasses.second_eq
    rw [hsecond] at hnext
    revert hnext
    decide

/-- Not every instant of an interval that is later than a leap second is an occurrence after it. -/
theorem not_mem_occurrences_afterLeap :
    ¬ ∀ (s : Schedule) (everySeconds : UInt64) (anchor : Option Instant) (text : String)
      (after t : Instant) (k : Nat),
      s.definition = { recurrence := .interval everySeconds anchor } →
      (∀ a ∈ anchor, a.isLeap = false) → Instant.ofString? text = some after → after < t →
      t.second = (anchor.getD .epoch).second + k * everySeconds.toNat →
      t.nano = (anchor.getD .epoch).nano → t ∈ (s.occurrences after).toList := by
  intro h
  have hread : Instant.ofString? "2016-12-31T23:59:60Z" = some leapSecond := by decide
  have hmem := h everyHalfHour 1800 none _ leapSecond newYear 824016 rfl (fun _ h => nomatch h)
    hread (by decide) (by decide) rfl
  have hplain : Instant.epoch.nano < 1000000000 := by decide
  exact ((mem_occurrences_of_timing rfl ⟨rfl, rfl⟩ hplain).mp hmem).2.2
    ⟨by decide, by decide, by decide, by decide⟩

end Schedule

end RunScheduler
