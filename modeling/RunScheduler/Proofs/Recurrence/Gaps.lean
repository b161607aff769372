import RunScheduler.Proofs.Recurrence.Expansion
import RunScheduler.Proofs.Recurrence.Selection

/-!
# Gaps between candidates

Expansion gives up after a fixed number of empty periods, however short a period is. It finds a
candidate exactly if there is no such stretch between the period that it begins at and that of the
candidate (`mem_occurrences_iff_not_longGap`).

What is in the way is the length of a gap in periods. Every Friday the 13th is at most fourteen
months after the one before: less than 500 days, but more than 600,000 minutes. A rule that counts
days finds the next one, and a rule that counts minutes does not (`not_mem_occurrences_friday`).
-/

namespace RunScheduler.Rule

variable {r : Rule} {start after t : Instant} {i k k' empty : Nat} {l l' : List Instant}

/-! ### Candidates behind a gap -/

/-- Between a period and a later one there are more empty periods in a row than expansion goes
through. -/
def LongGap (r : Rule) (start : Instant) (first k : Nat) : Prop :=
  ∃ i, first ≤ i ∧ i + maxEmptyPeriods < k ∧ r.EmptyFrom start i

theorem period_eq_of_mem (hl : r.candidates start k = some l) (hl' : r.candidates start k' = some l')
    (ht : t ∈ l) (ht' : t ∈ l') : k = k' := by
  rcases Nat.lt_trichotomy k k' with hlt | heq | hlt
  · exact absurd (lt_of_mem_candidates hl hl' hlt ht ht') (Instant.lt_irrefl t)
  · exact heq
  · exact absurd (lt_of_mem_candidates hl' hl hlt ht' ht) (Instant.lt_irrefl t)

theorem expand_of_stretch (hempty : empty ≤ maxEmptyPeriods)
    (h : ∀ i, empty + i ≤ maxEmptyPeriods → r.candidates start (k + i) = some []) :
    r.expand start k empty = .nil := by
  induction k, empty using expand.induct r start with
  | case1 k empty hnone => exact expand_of_none hnone
  | case2 k empty hsome hstop => rw [expand_of_empty hsome, if_pos hstop]
  | case3 k empty hsome hgo ih =>
    rw [expand_of_empty hsome, if_neg hgo]
    refine ih (Nat.not_le.mp hgo) fun i hi => ?_
    rw [Nat.add_right_comm, Nat.add_assoc]
    exact h (i + 1) (by omega)
  | case4 k empty t l hsome ih =>
    have hfirst := h 0 hempty
    rw [Nat.add_zero, hsome] at hfirst
    cases hfirst

theorem period_lt_of_mem_expand (hstretch : r.EmptyFrom start i) (hle : k ≤ i)
    (ht : t ∈ (r.expand start k empty).toList) :
    ∃ j l, j < i ∧ r.candidates start j = some l ∧ t ∈ l := by
  induction k, empty using expand.induct r start with
  | case1 k empty hnone =>
    rw [expand_of_none hnone] at ht
    cases ht
  | case2 k empty hsome hstop =>
    rw [expand_of_empty hsome, if_pos hstop] at ht
    cases ht
  | case3 k empty hsome hgo ih =>
    rcases Nat.lt_or_eq_of_le hle with hlt | rfl
    · rw [expand_of_empty hsome, if_neg hgo] at ht
      exact ih hlt ht
    · rw [expand_of_stretch (Nat.le_of_not_le hgo) fun j hj => hstretch j (by omega)] at ht
      cases ht
  | case4 k empty u l hsome ih =>
    have hlt : k < i := by
      refine Nat.lt_of_le_of_ne hle ?_
      rintro rfl
      have hfirst := hstretch 0 (Nat.zero_le _)
      rw [Nat.add_zero, hsome] at hfirst
      cases hfirst
    rw [expand_of_cons hsome, LazyList.toList_prepend, List.mem_append] at ht
    rcases ht with ht | ht
    · exact ⟨k, _, hlt, hsome, ht⟩
    · exact ih hlt ht

/-- Expansion from a period on finds a candidate unless it gives up before. -/
theorem mem_expand_iff (hl : r.candidates start k' = some l) (ht : t ∈ l) (hle : k ≤ k') :
    t ∈ (r.expand start k 0).toList ↔ ¬ r.LongGap start k k' := by
  constructor
  · rintro hmem ⟨i, hi, hlt, hstretch⟩
    obtain ⟨j, l', hj, hl', ht'⟩ := period_lt_of_mem_expand hstretch hi hmem
    have hsame := period_eq_of_mem hl hl' ht ht'
    omega
  · intro hgap
    rcases toList_expand r start k 0 (Nat.zero_le k) (fun i hi hlt => by omega) with heq | hstretch
    · rw [heq]
      exact mem_unrolled_iff.mpr ⟨k', l, hle, hl, ht⟩
    · obtain ⟨i, hi, hempty, heq⟩ := hstretch
      rw [Nat.add_zero] at hi
      rw [heq]
      -- The period of the candidate comes before the stretch: it is neither in it nor behind it.
      have hbefore : k' < i := by
        by_contra hnot
        by_cases hbehind : i + maxEmptyPeriods < k'
        · exact hgap ⟨i, hi, hbehind, hempty⟩
        · have hnone := hempty (k' - i) (by omega)
          rw [show i + (k' - i) = k' by omega, hl] at hnone
          cases hnone
          cases ht
      refine List.mem_flatMap.mpr ⟨k', List.mem_range'_1.mpr ⟨hle, by omega⟩, ?_⟩
      rw [hl]
      exact ht

/-! ### Occurrences behind a gap -/

theorem mem_takeWhile_notPast (hasc : l.Pairwise (· < ·)) (ht : t ∈ l)
    (huntil : r.notPast t = true) : t ∈ l.takeWhile r.notPast := by
  obtain ⟨front, back, rfl⟩ := List.append_of_mem ht
  have hfront : ∀ u ∈ front, r.notPast u = true := by
    intro u hu
    have hlt := (List.pairwise_append.mp hasc).2.2 u hu t List.mem_cons_self
    exact notPast_of_le (Instant.le_of_lt hlt) huntil
  rw [List.takeWhile_append_of_pos hfront, List.takeWhile_cons, if_pos huntil]
  exact List.mem_append_right _ List.mem_cons_self

theorem mem_take_of_isPrefix {n : Nat} (hfront : l' <+: l) (ht : t ∈ l') (hn : t ∈ l.take n) :
    t ∈ l'.take n := by
  rw [List.prefix_iff_eq_take.mp hfront] at ht ⊢
  rw [List.take_take]
  rcases Nat.le_total n l'.length with hle | hle
  · rwa [Nat.min_eq_left hle]
  · rwa [Nat.min_eq_right hle]

/-- **Rules find what no long gap hides.** A candidate from the start on that is later than an
instant, not too late for `until` and among the first ones that `count` allows is an occurrence of
the rule after this instant if and only if no stretch of empty periods makes expansion give up
between the period it begins at and that of the candidate. -/
theorem mem_occurrences_iff_not_longGap (hl : r.candidates start k = some l) (ht : t ∈ l)
    (hstart : start ≤ t) (hafter : after < t) (huntil : r.notPast t = true)
    (hcount : ∀ n, r.count = some n → t ∈ ((r.unrolled start 0).filter (start ≤ ·)).take n) :
    t ∈ (r.occurrences start after).toList ↔
      ¬ r.LongGap start (r.skipped start after) k := by
  have hskipped : r.skipped start after ≤ k := by
    by_contra hlt
    have hearlier := lt_of_lt_skipped (Nat.not_le.mp hlt) hl ht
    exact Instant.lt_irrefl t (Instant.lt_trans hearlier hafter)
  rw [← mem_expand_iff hl ht hskipped, toList_occurrences_eq_cut, List.mem_filter,
    and_iff_left (decide_eq_true hafter)]
  have hfront := (expand_isPrefix r start (r.skipped start after)).filter (start ≤ ·)
  have hasc := ((pairwise_unrolled r start (r.skipped start after)).filter
    (start ≤ ·)).sublist hfront.sublist
  constructor
  · intro hmem
    exact (List.mem_filter.mp ((cut_isPrefix r _).subset hmem)).1
  · intro hmem
    have hwhile := mem_takeWhile_notPast hasc
      (List.mem_filter.mpr ⟨hmem, decide_eq_true hstart⟩) huntil
    unfold cut
    cases hn : r.count with
    | none => exact hwhile
    | some n =>
      rw [skipped_of_count hn] at hwhile hfront ⊢
      exact mem_take_of_isPrefix ((List.takeWhile_prefix _).trans hfront) hwhile (hcount n hn)

/-! ### Fridays the 13th -/

/-- On every Friday the 13th, counted in days or in shorter periods. -/
def fridays (frequency : Frequency) : Rule where
  frequency := frequency
  interval := 1
  count := none
  until? := none
  byDay := [.friday]
  byMonthDay := [13]
  byHour := []
  byMinute := []
  start? := none
  interval_pos := Nat.one_pos

/-- The start of 2024. -/
def newYear : Instant := (Instant.at? 19723 0 0 0 0).getD .epoch

/-- The first Friday the 13th of 2024, in September. -/
def friday : Instant := (Instant.at? 19979 0 0 0 0).getD .epoch

/-- Counted in days it is found. -/
theorem mem_occurrences_friday :
    (fridays .daily).candidates newYear 256 = some [friday] ∧
      ¬ (fridays .daily).LongGap newYear 0 256 ∧
      friday ∈ ((fridays .daily).occurrences newYear newYear).toList := by
  have hfound : (fridays .daily).candidates newYear 256 = some [friday] := by decide
  have hgap : ¬ (fridays .daily).LongGap newYear 0 256 := by
    rintro ⟨i, -, hlt, -⟩
    unfold maxEmptyPeriods at hlt
    omega
  have hlater : newYear < friday := by decide
  have hiff := mem_occurrences_iff_not_longGap hfound (List.mem_singleton_self _) (by decide)
    hlater rfl (fun n hn => by cases hn)
  exact ⟨hfound, hgap, hiff.mpr hgap⟩

theorem not_friday_of_lt : ∀ n < 70, ¬ (Calendar.weekdayOf (19723 + (n : Nat)) = .friday ∧
    Calendar.dayOfMonth (19723 + (n : Nat)) = 13) := by
  decide

theorem emptyFrom_newYear : (fridays .minutely).EmptyFrom newYear 0 := by
  intro i hi
  unfold maxEmptyPeriods at hi
  have hsecond : newYear.second = 19723 * 86400 := rfl
  obtain ⟨u, hu⟩ : ∃ u, newYear.addSeconds? ((i * 60 : Nat) : Int) = some u := by
    rw [← Option.isSome_iff_exists, Instant.addSeconds?_isSome_iff (Int.natCast_nonneg _), hsecond]
    simp only [Calendar.lastDay]
    omega
  have hminute := Instant.second_of_addSeconds? hu (Int.natCast_nonneg _)
  have hday : u.day = 19723 + (i / 1440 : Nat) := by
    unfold Instant.day
    omega
  have hnot := not_friday_of_lt (i / 1440) (by omega)
  rw [← hday] at hnot
  have hallows : (fridays .minutely).allows u = false := by
    refine Bool.eq_false_iff.mpr fun hallows => hnot ?_
    rw [allows_iff] at hallows
    exact ⟨List.mem_singleton.mp (hallows.1 (List.cons_ne_nil _ _)),
      List.mem_singleton.mp (hallows.2.1 (List.cons_ne_nil _ _))⟩
  have hoffers : (fridays .minutely).offers newYear (0 + i) = some [u] := by
    have hstep : (((0 + i) * 1 : Nat) : Int) * 60 = ((i * 60 : Nat) : Int) := by omega
    show (newYear.addSeconds? ((((0 + i) * 1 : Nat) : Int) * 60)).map (fun t => [t]) = some [u]
    rw [hstep, hu]
    rfl
  rw [candidates, hoffers]
  show some (ascending ([u].filter (fridays .minutely).allows)) = some []
  rw [List.filter_cons, hallows]
  rfl

/-- Counted in minutes it is not. -/
theorem not_mem_occurrences_friday :
    ¬ ∀ (text : List Char) (r : Rule) (start after t : Instant) (k : Nat) (l : List Instant),
      ofText text = .ok r → r.candidates start k = some l → t ∈ l → start ≤ t → after < t →
      r.notPast t = true →
      (∀ n, r.count = some n → t ∈ ((r.unrolled start 0).filter (start ≤ ·)).take n) →
      t ∈ (r.occurrences start after).toList := by
  intro h
  have hread : ofText "FREQ=MINUTELY;BYDAY=FR;BYMONTHDAY=13".toList = .ok (fridays .minutely) := by
    decide
  have hfound : (fridays .minutely).candidates newYear 368640 = some [friday] := by decide
  have hmem := h _ _ newYear newYear friday _ _ hread hfound (List.mem_singleton_self _)
    (by decide) (by decide) rfl fun n hn => by cases hn
  have hnone := expand_of_stretch (k := 0) (Nat.zero_le _) fun i hi =>
    emptyFrom_newYear i (by omega)
  rw [toList_occurrences_eq_cut, show (fridays .minutely).skipped newYear newYear = 0 from rfl,
    hnone] at hmem
  exact absurd hmem (by decide)

end RunScheduler.Rule
