import Mathlib.Data.List.Infix
import Mathlib.Data.List.TakeWhile
import RunScheduler.Proofs.Recurrence.Period

/-!
# Expansion from a later period

The full expansion of a rule takes the candidates of all periods in order, as long as the calendar
has them, leaves out those before the start, and is cut by `until` and `count`
(`fullExpansion`). Expansion that skips periods gives the same occurrences after the instant it
skips to (`toList_occurrences_eq_filter_fullExpansion`), unless it meets a long stretch of empty
periods before it is over (`GivesUp`).

What makes it so: the candidates ascend through all periods (`pairwise_unrolled`), no skipped one
is later than that instant, and `until` cuts an ascending list at the same place wherever the
list begins.
-/

namespace RunScheduler.Rule

variable {r : Rule} {start after t : Instant} {k k' : Nat} {l l' : List Instant}

/-! ### All candidates -/

/-- The candidates of the periods from `period` on, as long as the calendar has them. -/
def unrolled (r : Rule) (start : Instant) (period : Nat) : List Instant :=
  match _h : r.candidates start period with
  | none => []
  | some l => l ++ r.unrolled start (period + 1)
termination_by periodLimit - period
decreasing_by
  have := lt_periodLimit _h
  omega

theorem unrolled_of_none (h : r.candidates start k = none) : r.unrolled start k = [] := by
  rw [unrolled]
  split
  · rfl
  · rename_i heq
    rw [h] at heq
    cases heq

theorem unrolled_of_some (h : r.candidates start k = some l) :
    r.unrolled start k = l ++ r.unrolled start (k + 1) := by
  rw [unrolled]
  split
  · rename_i heq
    rw [h] at heq
    cases heq
  · rename_i heq
    rw [h] at heq
    cases heq
    rfl

theorem exists_unrolled_eq_append (r : Rule) (start : Instant) (hle : k ≤ k') :
    ∃ front, r.unrolled start k = front ++ r.unrolled start k' ∧
      ∀ t ∈ front, ∃ i l, i < k' ∧ r.candidates start i = some l ∧ t ∈ l := by
  induction hle with
  | refl => exact ⟨[], rfl, fun t h => nomatch h⟩
  | @step m hle ih =>
    obtain ⟨front, heq, hfront⟩ := ih
    have hearlier : ∀ t ∈ front, ∃ i l, i < m + 1 ∧ r.candidates start i = some l ∧ t ∈ l := by
      intro t ht
      obtain ⟨i, l, hi, hl, hmem⟩ := hfront t ht
      exact ⟨i, l, Nat.lt_succ_of_lt hi, hl, hmem⟩
    cases hm : r.candidates start m with
    | none =>
      have hend := candidates_eq_none_of_le (Nat.le_succ m) hm
      rw [unrolled_of_none hm] at heq
      exact ⟨front, by rw [unrolled_of_none hend, heq], hearlier⟩
    | some l =>
      rw [unrolled_of_some hm, ← List.append_assoc] at heq
      refine ⟨front ++ l, heq, fun t ht => ?_⟩
      rcases List.mem_append.mp ht with ht | ht
      · exact hearlier t ht
      · exact ⟨m, l, Nat.lt_succ_self m, hm, ht⟩

theorem mem_unrolled_iff :
    t ∈ r.unrolled start k ↔ ∃ i l, k ≤ i ∧ r.candidates start i = some l ∧ t ∈ l := by
  constructor
  · intro h
    induction k using unrolled.induct r start with
    | case1 k hnone =>
      rw [unrolled_of_none hnone] at h
      cases h
    | case2 k l hsome ih =>
      rw [unrolled_of_some hsome] at h
      rcases List.mem_append.mp h with h | h
      · exact ⟨k, l, Nat.le_refl k, hsome, h⟩
      · obtain ⟨i, l', hi, hl', ht⟩ := ih h
        exact ⟨i, l', Nat.le_of_succ_le hi, hl', ht⟩
  · rintro ⟨i, l, hi, hl, ht⟩
    obtain ⟨front, heq, -⟩ := exists_unrolled_eq_append r start hi
    rw [heq, unrolled_of_some hl]
    exact List.mem_append_right _ (List.mem_append_left _ ht)

theorem pairwise_unrolled (r : Rule) (start : Instant) (k : Nat) :
    (r.unrolled start k).Pairwise (· < ·) := by
  induction k using unrolled.induct r start with
  | case1 k hnone =>
    rw [unrolled_of_none hnone]
    exact List.Pairwise.nil
  | case2 k l hsome ih =>
    rw [unrolled_of_some hsome]
    refine List.pairwise_append.mpr ⟨pairwise_candidates hsome, ih, fun t ht u hu => ?_⟩
    obtain ⟨i, l', hi, hl', hu⟩ := mem_unrolled_iff.mp hu
    exact lt_of_mem_candidates hsome hl' hi ht hu

/-! ### The cut -/

/-- Ends a list at the first instant later than the rule's last, and at the rule's count. -/
def cut (r : Rule) (l : List Instant) : List Instant :=
  match r.count with
  | none => l.takeWhile r.notPast
  | some n => (l.takeWhile r.notPast).take n

theorem cut_isPrefix (r : Rule) (l : List Instant) : r.cut l <+: l := by
  have hwhile := List.takeWhile_prefix (l := l) r.notPast
  unfold cut
  split
  · exact hwhile
  · exact (List.take_prefix _ _).trans hwhile

/-- Neither `until` nor `count` has ended the list yet. -/
def Unfinished (r : Rule) (l : List Instant) : Prop :=
  (∀ t ∈ l, r.notPast t = true) ∧ ∀ n, r.count = some n → l.length < n

theorem takeWhile_append_of_past (h : ¬ ∀ t ∈ l, r.notPast t = true) :
    (l ++ l').takeWhile r.notPast = l.takeWhile r.notPast := by
  rw [List.takeWhile_append, if_neg]
  intro hlength
  have hwhole := (List.takeWhile_prefix (l := l) r.notPast).eq_of_length hlength
  exact h (List.takeWhile_eq_self_iff.mp hwhole)

theorem cut_append_of_not_unfinished (h : ¬ r.Unfinished l) : r.cut (l ++ l') = r.cut l := by
  unfold cut
  by_cases hpast : ∀ t ∈ l, r.notPast t = true
  · have hcount : ∃ n, r.count = some n ∧ n ≤ l.length := by
      by_contra hnone
      refine h ⟨hpast, fun n hn => ?_⟩
      by_contra hle
      exact hnone ⟨n, hn, Nat.not_lt.mp hle⟩
    obtain ⟨n, hn, hle⟩ := hcount
    simp only [hn]
    rw [List.takeWhile_append_of_pos hpast, List.takeWhile_eq_self_iff.mpr hpast,
      List.take_append_of_le_length hle]
  · rw [takeWhile_append_of_past hpast]

theorem notPast_of_le {u : Instant} (hle : t ≤ u) (h : r.notPast u = true) :
    r.notPast t = true := by
  unfold notPast at h ⊢
  split
  · rfl
  · rename_i last hlast
    simp only [hlast, decide_eq_true_eq] at h ⊢
    exact Instant.le_trans hle h

/-- The whole expansion of a rule. -/
def fullExpansion (r : Rule) (start : Instant) : List Instant :=
  r.cut ((r.unrolled start 0).filter (start ≤ ·))

/-! ### Giving up -/

/-- More periods in a row than expansion goes through have no candidate, from `period` on. -/
def EmptyFrom (r : Rule) (start : Instant) (period : Nat) : Prop :=
  ∀ i ≤ maxEmptyPeriods, r.candidates start (period + i) = some []

/-- The candidates of the periods from one up to, but not of, another. -/
def candidatesBetween (r : Rule) (start : Instant) (first stop : Nat) : List Instant :=
  (List.range' first (stop - first)).flatMap fun i => (r.candidates start i).getD []

/-- Expansion from a period on comes to a stretch of empty periods that makes it give up, before
it is over. -/
def GivesUp (r : Rule) (start : Instant) (period : Nat) : Prop :=
  ∃ k, period ≤ k ∧ r.EmptyFrom start k ∧
    r.Unfinished ((r.candidatesBetween start period k).filter (start ≤ ·))

theorem EmptyFrom.ne_none (h : r.EmptyFrom start k) : r.candidates start k ≠ none := by
  have hfirst := h 0 (Nat.zero_le _)
  rw [Nat.add_zero] at hfirst
  rw [hfirst]
  exact fun heq => nomatch heq

theorem candidatesBetween_of_le (h : k' ≤ k) : r.candidatesBetween start k k' = [] := by
  unfold candidatesBetween
  rw [Nat.sub_eq_zero_of_le h]
  rfl

theorem candidatesBetween_of_lt (h : k < k') :
    r.candidatesBetween start k k' =
      (r.candidates start k).getD [] ++ r.candidatesBetween start (k + 1) k' := by
  unfold candidatesBetween
  obtain ⟨n, rfl⟩ : ∃ n, k' = k + 1 + n := ⟨k' - (k + 1), by omega⟩
  rw [show k + 1 + n - k = n + 1 by omega, show k + 1 + n - (k + 1) = n by omega,
    List.range'_succ, List.flatMap_cons]

theorem unrolled_eq_candidatesBetween_append (hle : k ≤ k')
    (h : r.candidates start k' ≠ none) :
    r.unrolled start k = r.candidatesBetween start k k' ++ r.unrolled start k' := by
  induction hle using Nat.decreasingInduction with
  | self => rw [candidatesBetween_of_le (Nat.le_refl k'), List.nil_append]
  | of_succ k hlt ih =>
    cases hk : r.candidates start k with
    | none => exact absurd (candidates_eq_none_of_le (Nat.le_of_lt hlt) hk) h
    | some l => rw [unrolled_of_some hk, ih, candidatesBetween_of_lt hlt, hk,
        Option.getD_some, List.append_assoc]

theorem expand_of_none {empty : Nat} (h : r.candidates start k = none) :
    r.expand start k empty = .nil := by
  rw [expand]
  split
  · rfl
  all_goals
    rename_i heq
    rw [h] at heq
    cases heq

theorem expand_of_empty {empty : Nat} (h : r.candidates start k = some []) :
    r.expand start k empty =
      if maxEmptyPeriods ≤ empty then .nil else r.expand start (k + 1) (empty + 1) := by
  rw [expand]
  split
  case h_2 => rfl
  all_goals
    rename_i heq
    rw [h] at heq
    cases heq

theorem expand_of_cons {empty : Nat} (h : r.candidates start k = some (t :: l)) :
    r.expand start k empty = .prepend (t :: l) fun _ => r.expand start (k + 1) 0 := by
  rw [expand]
  split
  all_goals
    rename_i heq
    rw [h] at heq
    cases heq
  rfl

/-- Expansion takes the candidates of all periods, or those before a stretch of empty periods
that makes it give up. The `empty` periods before the first one had no candidate either. -/
theorem toList_expand (r : Rule) (start : Instant) (k empty : Nat) (hle : empty ≤ k)
    (hempty : ∀ i, k ≤ i + empty → i < k → r.candidates start i = some []) :
    (r.expand start k empty).toList = r.unrolled start k ∨
      ∃ k', k ≤ k' + empty ∧ r.EmptyFrom start k' ∧
        (r.expand start k empty).toList = r.candidatesBetween start k k' := by
  induction k, empty using expand.induct r start with
  | case1 k empty hnone =>
    left
    rw [expand_of_none hnone, unrolled_of_none hnone]
    rfl
  | case2 k empty hsome hstop =>
    -- The stretch that ends here began with the `empty` periods before this one.
    right
    refine ⟨k - empty, by omega, fun i hi => ?_, ?_⟩
    · by_cases hlast : k - empty + i = k
      · rw [hlast]
        exact hsome
      · exact hempty _ (by omega) (by omega)
    · rw [expand_of_empty hsome, if_pos hstop, candidatesBetween_of_le (by omega)]
      rfl
  | case3 k empty hsome hgo ih =>
    have hrest := ih (by omega) fun i hi hlt => by
      by_cases hlast : i = k
      · rw [hlast]
        exact hsome
      · exact hempty i (by omega) (by omega)
    rw [expand_of_empty hsome, if_neg hgo, unrolled_of_some hsome, List.nil_append]
    refine hrest.imp_right ?_
    rintro ⟨k', hk', hstretch, heq⟩
    refine ⟨k', by omega, hstretch, ?_⟩
    rw [heq]
    by_cases hlt : k < k'
    · rw [candidatesBetween_of_lt hlt, hsome]
      rfl
    · rw [candidatesBetween_of_le (by omega), candidatesBetween_of_le (by omega)]
  | case4 k empty t l hsome ih =>
    have hrest := ih (Nat.zero_le _) fun i hi hlt => by omega
    rw [expand_of_cons hsome, LazyList.toList_prepend, unrolled_of_some hsome]
    rcases hrest with heq | ⟨k', hk', hstretch, heq⟩
    · left
      rw [heq]
    · right
      have hlt : k < k' := by omega
      refine ⟨k', by omega, hstretch, ?_⟩
      rw [heq, candidatesBetween_of_lt hlt, hsome]
      rfl

theorem expand_isPrefix (r : Rule) (start : Instant) (k : Nat) :
    (r.expand start k 0).toList <+: r.unrolled start k := by
  rcases toList_expand r start k 0 (Nat.zero_le k) (fun i hi hlt => by omega) with heq | hstretch
  · rw [heq]
  · obtain ⟨k', hk', hempty, heq⟩ := hstretch
    rw [Nat.add_zero] at hk'
    rw [heq, unrolled_eq_candidatesBetween_append hk' hempty.ne_none]
    exact List.prefix_append _ _

theorem cut_expand (h : ¬ r.GivesUp start k) :
    r.cut ((r.expand start k 0).toList.filter (start ≤ ·)) =
      r.cut ((r.unrolled start k).filter (start ≤ ·)) := by
  rcases toList_expand r start k 0 (Nat.zero_le k) (fun i hi hlt => by omega) with heq | hstretch
  · rw [heq]
  · obtain ⟨k', hk', hempty, heq⟩ := hstretch
    have hover : ¬ r.Unfinished ((r.candidatesBetween start k k').filter (start ≤ ·)) :=
      fun hgo => h ⟨k', hk', hempty, hgo⟩
    rw [Nat.add_zero] at hk'
    rw [heq, unrolled_eq_candidatesBetween_append hk' hempty.ne_none, List.filter_append,
      cut_append_of_not_unfinished hover]

/-! ### Skipping -/

theorem skipped_of_count {n : Nat} (h : r.count = some n) : r.skipped start after = 0 := by
  unfold skipped
  rw [if_pos (Or.inl (by rw [h]; rfl))]

/-- Of an ascending list, what stands at or before an instant may be left out before the list is
cut by `until`, if only what is later than the instant is wanted. -/
theorem filter_takeWhile_append {l l' : List Instant} (hasc : (l ++ l').Pairwise (· < ·))
    (hearlier : ∀ t ∈ l, t ≤ after) :
    ((l ++ l').takeWhile r.notPast).filter (after < ·) =
      (l'.takeWhile r.notPast).filter (after < ·) := by
  have hnone : l.filter (after < ·) = [] := by
    rw [List.filter_eq_nil_iff]
    intro t ht hlater
    exact Instant.not_lt.mpr (hearlier t ht) (of_decide_eq_true hlater)
  by_cases hpast : ∀ t ∈ l, r.notPast t = true
  · rw [List.takeWhile_append_of_pos hpast, List.filter_append, hnone, List.nil_append]
  · -- `until` ends the list before the second part, none of which is early enough then.
    obtain ⟨t, ht, hlate⟩ : ∃ t ∈ l, r.notPast t = false := by
      simpa using hpast
    have hwhile : l'.takeWhile r.notPast = [] := by
      rw [List.takeWhile_eq_nil_iff]
      intro hne hfirst
      have hlt := (List.pairwise_append.mp hasc).2.2 t ht _ (List.get_mem l' ⟨0, hne⟩)
      rw [notPast_of_le (Instant.le_of_lt hlt) hfirst] at hlate
      cases hlate
    have hdropped : (l.takeWhile r.notPast).filter (after < ·) <+: l.filter (after < ·) :=
      (List.takeWhile_prefix r.notPast).filter _
    rw [hnone, List.prefix_nil] at hdropped
    rw [hwhile, takeWhile_append_of_past hpast, hdropped]
    rfl

theorem toList_occurrences_eq_cut (r : Rule) (start after : Instant) :
    (r.occurrences start after).toList =
      (r.cut ((r.expand start (r.skipped start after) 0).toList.filter (start ≤ ·))).filter
        (after < ·) := by
  unfold occurrences limit cut
  cases r.count <;> simp

/-- **Skipping ahead agrees with the full expansion.** The occurrences of a rule after an instant
are the instants of its full expansion that are later, in the same order. Only the expansion that
is made has to reach its end: the full one may come to a long stretch of empty periods. -/
theorem toList_occurrences_eq_filter_fullExpansion
    (h : ¬ r.GivesUp start (r.skipped start after)) :
    (r.occurrences start after).toList = (r.fullExpansion start).filter (after < ·) := by
  rw [toList_occurrences_eq_cut, cut_expand h, fullExpansion]
  cases hcount : r.count with
  | some n =>
    have hskipped : r.skipped start after = 0 := skipped_of_count hcount
    rw [hskipped]
  | none =>
    obtain ⟨front, heq, hfront⟩ := exists_unrolled_eq_append r start
      (Nat.zero_le (r.skipped start after))
    have hasc := (pairwise_unrolled r start 0).filter (start ≤ ·)
    unfold cut
    simp only [hcount]
    rw [heq, List.filter_append] at hasc ⊢
    refine (filter_takeWhile_append hasc fun t ht => ?_).symm
    obtain ⟨i, l, hi, hl, hmem⟩ := hfront t (List.mem_filter.mp ht).1
    exact Instant.le_of_lt (lt_of_lt_skipped hi hl hmem)

/-- The 31st of every month that has one, until October 2024. -/
def lastDays : Rule where
  frequency := .monthly
  interval := 1
  count := none
  until? := Instant.at? 19997 0 0 0 0
  byDay := []
  byMonthDay := [31]
  byHour := []
  byMinute := []
  start? := none
  interval_pos := Nat.one_pos

/-- Nine o'clock on 31 January 2024. -/
def january : Instant := (Instant.at? 19753 9 0 0 0).getD .epoch

/-- 15 June 2024. -/
def june : Instant := (Instant.at? 19889 0 0 0 0).getD .epoch

/-- Nine o'clock on 31 October 2024. -/
def october : Instant := (Instant.at? 20027 9 0 0 0).getD .epoch

/-- With February to May skipped. -/
theorem toList_occurrences_of_lastDays :
    lastDays.skipped january june = 4 ∧ ¬ lastDays.GivesUp january 4 ∧
      (lastDays.occurrences january june).toList =
        (lastDays.fullExpansion january).filter (june < ·) := by
  have hskipped : lastDays.skipped january june = 4 := by decide
  have hoctober : lastDays.candidates january 9 = some [october] := by decide
  have hgo : ¬ lastDays.GivesUp january 4 := by
    rintro ⟨k, hk, hempty, hunfinished, -⟩
    by_cases hlater : 9 < k
    · -- October is over the end.
      have hmem : october ∈ (lastDays.candidatesBetween january 4 k).filter (january ≤ ·) := by
        refine List.mem_filter.mpr ⟨List.mem_flatMap.mpr ⟨9, ?_, ?_⟩, by decide⟩
        · rw [List.mem_range'_1]
          omega
        · rw [hoctober]
          exact List.mem_singleton_self october
      exact absurd (hunfinished october hmem) (by decide)
    · have hnone := hempty (9 - k) (by unfold maxEmptyPeriods; omega)
      rw [show k + (9 - k) = 9 by omega, hoctober] at hnone
      cases hnone
  refine ⟨hskipped, hgo, toList_occurrences_eq_filter_fullExpansion ?_⟩
  rw [hskipped]
  exact hgo

end RunScheduler.Rule
