import Mathlib.Data.List.Induction
import RunScheduler.Proofs.Recurrence.Cron
import RunScheduler.Proofs.Recurrence.Expansion
import RunScheduler.Proofs.Recurrence.Interval
import RunScheduler.Schedule.Evaluation

/-!
# Coverage of a schedule

A deployment is evaluated again and again, and each pass takes a few times after its own `now`.
As long as no pass begins after the latest time that the passes before it took, together they take
every occurrence up to the latest time of all (`passes_leave_no_gap`).

Each pass takes the first of the occurrences after its `now` (`evaluate_isPrefix`), and what the
passes list after different instants agrees: an occurrence that one search yields is yielded by a
search from any earlier instant, if that search gets as far (`mem_occurrences_of_le`). For cron
patterns this rests on searches that yield all the matches that are later.
-/

namespace RunScheduler

theorem mem_of_isPrefix {l l' : List Instant} (hfront : l <+: l') (hasc : l'.Pairwise (· < ·))
    {c t : Instant} (hc : c ∈ l) (ht : t ∈ l') (hle : t ≤ c) : t ∈ l := by
  obtain ⟨rest, rfl⟩ := hfront
  rcases List.mem_append.mp ht with ht | ht
  · exact ht
  · have hlt := (List.pairwise_append.mp hasc).2.2 c hc t ht
    exact absurd hle (Instant.not_le.mpr hlt)

/-! ### Occurrences after different instants -/

theorem Rule.pairwise_occurrences (r : Rule) (start after : Instant) :
    (r.occurrences start after).toList.Pairwise (· < ·) := by
  have hasc := (pairwise_unrolled r start (r.skipped start after)).sublist
    (expand_isPrefix r start _).sublist
  rw [toList_occurrences_eq_cut]
  exact ((hasc.filter _).sublist (cut_isPrefix r _).sublist).filter _

theorem Rule.mem_occurrences_of_le {r : Rule} {start now other c t : Instant}
    (hc : c ∈ (r.occurrences start now).toList) (ht : t ∈ (r.occurrences start other).toList)
    (hlt : now < t) (hle : t ≤ c) : t ∈ (r.occurrences start now).toList := by
  rw [toList_occurrences_eq_cut, List.mem_filter] at hc ht ⊢
  refine ⟨?_, decide_eq_true hlt⟩
  have hfront : ∀ after, r.cut ((r.expand start (r.skipped start after) 0).toList.filter
      (start ≤ ·)) <+: (r.unrolled start (r.skipped start after)).filter (start ≤ ·) :=
    fun after => (cut_isPrefix r _).trans ((expand_isPrefix r start _).filter _)
  refine mem_of_isPrefix (hfront now) ((pairwise_unrolled r start _).filter _) hc.1 ?_ hle
  obtain ⟨hmem, hstart⟩ := List.mem_filter.mp ((hfront other).subset ht.1)
  refine List.mem_filter.mpr ⟨?_, hstart⟩
  obtain ⟨i, l, -, hl, hti⟩ := mem_unrolled_iff.mp hmem
  -- Its period is not among those skipped, which end before it.
  refine mem_unrolled_iff.mpr ⟨i, l, ?_, hl, hti⟩
  by_contra hskipped
  have hearlier := lt_of_lt_skipped (Nat.not_le.mp hskipped) hl hti
  exact Instant.lt_irrefl t (Instant.lt_trans hearlier hlt)

theorem Interval.mem_occurrences {i : Interval} {start : Option Instant} {now other t : Instant}
    (hplain : now.nano < 1000000000) (ht : t ∈ (i.occurrences other start).toList)
    (hlt : now < t) : t ∈ (i.occurrences now start).toList := by
  obtain ⟨k, hk, hkt⟩ := mem_fromIndex_iff.mp ht
  have hindex := indexAfter_le hplain hkt hlt
  refine mem_fromIndex_iff.mpr ⟨k, ?_, hkt⟩
  unfold firstIndex at hk ⊢
  split at hk
  · omega
  · split_ifs at hk ⊢
    · omega
    · omega

namespace Schedule

/-- The instant that a cron search for what is later begins after: one second before the start of
the schedule, if that is still to come. -/
def searchedAfter (start : Option Instant) (after : Instant) : Option Instant :=
  match start with
  | none => some after
  | some start => if after < start then start.addSeconds? (-1) else some after

/-- A cron search for what is later than an instant yields, in ascending order, exactly the
matches that are later than where it begins. -/
def Timing.SearchedExactly (timing : Timing) (start : Option Instant) (after : Instant) : Prop :=
  ∀ p, timing = .cron p → ∀ first, searchedAfter start after = some first → p.ExactAfter first

theorem Timing.occurrences_cron (p : Cron.Pattern) (start : Option Instant) (after : Instant) :
    ((Timing.cron p).occurrences start after).toList =
      match searchedAfter start after with
      | none => []
      | some first => (p.occurrences first).toList := by
  unfold Timing.occurrences searchedAfter
  cases start with
  | none => rfl
  | some start =>
    dsimp only
    split_ifs
    · cases start.addSeconds? (-1) <;> rfl
    · rfl

theorem Timing.pairwise_occurrences {timing : Timing} {start : Option Instant} {now : Instant}
    (hexact : timing.SearchedExactly start now) :
    (timing.occurrences start now).toList.Pairwise (· < ·) := by
  cases timing with
  | interval i => exact i.pairwise_fromIndex _
  | rule r first => exact r.pairwise_occurrences first now
  | cron p =>
    rw [occurrences_cron]
    cases hfirst : searchedAfter start now with
    | none => exact List.Pairwise.nil
    | some first => exact (hexact p rfl first hfirst).pairwise

theorem lt_of_searchedAfter {start : Option Instant} {after first t : Instant}
    (hfirst : searchedAfter start after = some first) (hstart : notBefore start t = true)
    (hlt : after < t) : first < t := by
  unfold searchedAfter at hfirst
  cases start with
  | none =>
    cases hfirst
    exact hlt
  | some start =>
    dsimp only at hfirst
    split_ifs at hfirst with hbefore
    · have hle : start ≤ t := of_decide_eq_true hstart
      exact Instant.lt_of_lt_of_le (Instant.lt_of_addSeconds?_neg hfirst (by decide)) hle
    · cases hfirst
      exact hlt

theorem Timing.mem_occurrences_of_le {timing : Timing} {start : Option Instant}
    {now other c t : Instant} (hplain : now.isLeap = false)
    (hexact : timing.SearchedExactly start now) (hc : c ∈ (timing.occurrences start now).toList)
    (ht : t ∈ (timing.occurrences start other).toList) (hstart : notBefore start t = true)
    (hlt : now < t) (hle : t ≤ c) : t ∈ (timing.occurrences start now).toList := by
  cases timing with
  | interval i =>
    have hnano : now.nano < 1000000000 := Nat.not_le.mp (of_decide_eq_false hplain)
    exact i.mem_occurrences hnano ht hlt
  | rule r first => exact Rule.mem_occurrences_of_le hc ht hlt hle
  | cron p =>
    rw [occurrences_cron] at hc ht ⊢
    have hmatches : p.Matches t := by
      split at ht
      · cases ht
      · exact Cron.Pattern.matches_of_mem_occurrences ht
    cases hfirst : searchedAfter start now with
    | none =>
      rw [hfirst] at hc
      cases hc
    | some first =>
      exact ((hexact p rfl first hfirst).mem_iff t).mpr
        ⟨hmatches, lt_of_searchedAfter hfirst hstart hlt⟩

variable {s : Schedule} {now other c t : Instant} {b : Bounds}

theorem pairwise_occurrences (hexact : s.timing.SearchedExactly s.start now) :
    (s.occurrences now).toList.Pairwise (· < ·) := by
  unfold occurrences
  rw [LazyList.toList_takeWhile, LazyList.toList_filter]
  exact ((Timing.pairwise_occurrences hexact).filter _).sublist (List.takeWhile_sublist _)

/-- An occurrence that a search from some instant yields is yielded by the search from any earlier
one that gets as far. -/
theorem mem_occurrences_of_le (hplain : now.isLeap = false)
    (hexact : s.timing.SearchedExactly s.start now) (hc : c ∈ (s.occurrences now).toList)
    (ht : t ∈ (s.occurrences other).toList) (hlt : now < t) (hle : t ≤ c) :
    t ∈ (s.occurrences now).toList := by
  unfold occurrences at hc ht ⊢
  rw [LazyList.toList_takeWhile, LazyList.toList_filter] at hc ht ⊢
  have hfront := List.takeWhile_prefix (notAfter s.stop)
    (l := (s.timing.occurrences s.start now).toList.filter
      fun t => decide (now < t) && notBefore s.start t)
  refine mem_of_isPrefix hfront ((Timing.pairwise_occurrences hexact).filter _) hc ?_ hle
  have htime := List.mem_filter.mp (hfront.subset hc)
  have hother := List.mem_filter.mp ((List.takeWhile_prefix _).subset ht)
  have hstart : notBefore s.start t = true := (Bool.and_eq_true _ _ ▸ hother.2).2
  refine List.mem_filter.mpr ⟨?_, ?_⟩
  · exact Timing.mem_occurrences_of_le hplain hexact htime.1 hother.1 hstart hlt hle
  · rw [Bool.and_eq_true]
    exact ⟨decide_eq_true hlt, hstart⟩

/-! ### What a pass takes -/

theorem takeTimes_isPrefix {ceiling : Instant} {count : Nat} {taken : List Instant}
    {times : LazyList Instant} (hasc : times.toList.Pairwise (· < ·))
    (hlater : ∀ last, taken.head? = some last → ∀ t ∈ times.toList, last < t) :
    takeTimes b now ceiling count taken times <+: taken.reverse ++ times.toList := by
  induction times generalizing count taken with
  | nil =>
    rw [takeTimes, LazyList.toList_nil, List.append_nil]
  | cons t rest ih =>
    rw [LazyList.toList_cons] at hasc hlater ⊢
    have hmore : (t :: taken).reverse ++ (rest ()).toList =
        taken.reverse ++ t :: (rest ()).toList := by
      rw [List.reverse_cons, List.append_assoc, List.singleton_append]
    rw [takeTimes]
    split_ifs with hceiling hseen henough
    · exact List.prefix_append _ _
    · -- The times ascend, so none is passed over.
      obtain ⟨last, hlast, hle⟩ := (Option.any_eq_true _ _).mp hseen
      have hlt := hlater last hlast t List.mem_cons_self
      exact absurd (of_decide_eq_true hle) (Instant.not_le.mpr hlt)
    · rw [← hmore]
      exact List.prefix_append _ _
    · rw [← hmore]
      refine ih () hasc.of_cons fun last hlast u hu => ?_
      cases hlast
      exact List.rel_of_pairwise_cons hasc hu

theorem evaluate_isPrefix (hexact : s.timing.SearchedExactly s.start now) :
    s.evaluate now b <+: (s.occurrences now).toList := by
  unfold evaluate
  split_ifs
  · exact List.nil_prefix
  · have hfront : takeTimes b now (ceiling s.stop now b) 0 [] (s.occurrences now) <+:
        [].reverse ++ (s.occurrences now).toList :=
      takeTimes_isPrefix (pairwise_occurrences hexact) fun _ h => nomatch h
    exact hfront

theorem mem_evaluate_of_le (hplain : now.isLeap = false)
    (hexact : s.timing.SearchedExactly s.start now) (hc : c ∈ s.evaluate now b)
    (ht : t ∈ (s.occurrences other).toList) (hlt : now < t) (hle : t ≤ c) :
    t ∈ s.evaluate now b := by
  have hfront := evaluate_isPrefix (b := b) hexact
  refine mem_of_isPrefix hfront (pairwise_occurrences hexact) hc ?_ hle
  exact mem_occurrences_of_le hplain hexact (hfront.subset hc) ht hlt hle

/-! ### Passes in a row -/

/-- The times that passes take, each as of an instant and within bounds of its own. -/
def taken (s : Schedule) (passes : List (Instant × Bounds)) : List Instant :=
  passes.flatMap fun (now, b) => s.evaluate now b

/-- **Passes in a row leave no gap.** Where each pass begins no later than the latest time that
those before it took, an instant after the first pass began and up to the latest time of all is
taken if and only if the schedule's occurrences after any instant have it, whatever the bounds of
the passes. -/
theorem passes_leave_no_gap {first : Instant × Bounds} {later : List (Instant × Bounds)}
    (hplain : ∀ pass ∈ first :: later, pass.1.isLeap = false)
    (hexact : ∀ pass ∈ first :: later, s.timing.SearchedExactly s.start pass.1)
    (hnext : ∀ before pass after, later = before ++ pass :: after →
      ∃ c ∈ s.taken (first :: before), pass.1 ≤ c)
    (hlt : first.1 < t) (hc : c ∈ s.taken (first :: later)) (hle : t ≤ c) :
    t ∈ s.taken (first :: later) ↔ ∃ other, t ∈ (s.occurrences other).toList := by
  constructor
  · intro ht
    obtain ⟨pass, hpass, ht⟩ := List.mem_flatMap.mp ht
    exact ⟨pass.1, (evaluate_isPrefix (hexact pass hpass)).subset ht⟩
  rintro ⟨other, ht⟩
  induction later using List.reverseRecOn generalizing c with
  | nil =>
    simp only [taken, List.flatMap_cons, List.flatMap_nil, List.append_nil] at hc ⊢
    exact mem_evaluate_of_le (hplain first List.mem_cons_self)
      (hexact first List.mem_cons_self) hc ht hlt hle
  | append_singleton later pass ih =>
    have hearlier : ∀ p ∈ first :: later, p ∈ first :: (later ++ [pass]) := by
      intro p hp
      rw [← List.cons_append]
      exact List.mem_append_left [pass] hp
    have htaken : s.taken (first :: (later ++ [pass])) =
        s.taken (first :: later) ++ s.evaluate pass.1 pass.2 := by
      rw [taken, ← List.cons_append, List.flatMap_append, List.flatMap_singleton]
      rfl
    have hbegins : ∀ before p after, later = before ++ p :: after →
        ∃ c ∈ s.taken (first :: before), p.1 ≤ c := by
      intro before p after heq
      refine hnext before p (after ++ [pass]) ?_
      rw [heq, List.append_assoc, List.cons_append]
    have hbefore : ∀ c ∈ s.taken (first :: later), t ≤ c → t ∈ s.taken (first :: later) :=
      fun c hc hle => ih (fun p hp => hplain p (hearlier p hp))
        (fun p hp => hexact p (hearlier p hp)) hbegins hc hle
    rw [htaken] at hc ⊢
    rcases List.mem_append.mp hc with hc | hc
    · exact List.mem_append_left _ (hbefore c hc hle)
    · obtain ⟨latest, hlatest, hbegin⟩ := hnext later pass [] rfl
      by_cases hold : t ≤ latest
      · exact List.mem_append_left _ (hbefore latest hlatest hold)
      · -- The pass began before `t`, and goes beyond it.
        have hlater : pass.1 < t := Instant.lt_of_le_of_lt hbegin (Instant.not_le.mp hold)
        have hpass : pass ∈ first :: (later ++ [pass]) := by
          rw [← List.cons_append]
          exact List.mem_append_right _ (List.mem_singleton_self pass)
        exact List.mem_append_right _
          (mem_evaluate_of_le (hplain pass hpass) (hexact pass hpass) hc ht hlater hle)

/-- Every full hour. -/
def onTheHour : Schedule :=
  ⟨{ recurrence := .cron "0 * * * *" }, .cron .hourly, by cbv⟩

def oneOClock : Instant := (Instant.epoch.addSeconds? 3600).getD .epoch

def twoOClock : Instant := (Instant.epoch.addSeconds? 7200).getD .epoch

/-- One time at each pass. -/
def nextTime : Bounds where
  minRuns := 1
  minAhead := .zero

theorem searchedExactly_onTheHour {start : Option Instant}
    (h : ∀ first, searchedAfter start now = some first → -1 ≤ first.second) :
    onTheHour.timing.SearchedExactly start now := by
  have hpattern : Cron.Pattern.hourly.WellFormed :=
    ⟨⟨by decide, by decide⟩, ⟨by decide, by decide⟩, Cron.Field.ascending_all _,
      Cron.Field.ascending_all _, Cron.Field.ascending_all _, Cron.Field.ascending_all _⟩
  intro p hp first hfirst
  cases hp
  exact Cron.Pattern.exactAfter hpattern rfl (h first hfirst)

/-- A pass at midnight and one at the time that it took. -/
theorem passes_leave_no_gap_of_hours :
    let passes : List (Instant × Bounds) := [(.epoch, nextTime), (oneOClock, nextTime)]
    onTheHour.taken passes = [oneOClock, twoOClock] ∧
      (oneOClock ∈ onTheHour.taken passes ↔
        ∃ other, oneOClock ∈ (onTheHour.occurrences other).toList) := by
  have hfirst : onTheHour.taken [(.epoch, nextTime)] = [oneOClock] := by decide +kernel
  have hboth : onTheHour.taken [(.epoch, nextTime), (oneOClock, nextTime)] =
      [oneOClock, twoOClock] := by decide +kernel
  refine ⟨hboth, passes_leave_no_gap (c := twoOClock) ?_ ?_ ?_ (by decide) ?_ (by decide)⟩
  · decide
  · intro pass hpass
    have hepoch : ∀ pass ∈ [(Instant.epoch, nextTime), (oneOClock, nextTime)],
        -1 ≤ pass.1.second := by decide
    refine searchedExactly_onTheHour fun first hfirst => ?_
    cases hfirst
    exact hepoch pass hpass
  · intro before pass after heq
    cases before with
    | nil =>
      obtain rfl := (List.cons.inj heq).1
      refine ⟨oneOClock, ?_, Instant.le_refl _⟩
      rw [hfirst]
      exact List.mem_singleton_self oneOClock
    | cons b before =>
      have hnil := (List.cons.inj heq).2
      exact absurd hnil.symm (List.append_ne_nil_of_right_ne_nil _ (List.cons_ne_nil _ _))
  · rw [hboth]
    decide

end Schedule

end RunScheduler
