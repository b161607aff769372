import RunScheduler.Proofs.Recurrence.Cron.Order
import RunScheduler.Proofs.Schedule.Window

/-!
# What an evaluation takes

An evaluation takes the shortest beginning of the occurrences up to the ceilings that is enough, or
all of them if none is (`evaluate_isShortest`). Enough is what meets both floors, or the ceiling on
the number of runs, so that a ceiling wins over a floor wherever they are at odds.

The loop that takes the times asks after each of them whether there are enough, and has been told
before that there were not. So nothing shorter is enough, which is what the induction carries
(`isShortest_takeTimes`). That it never passes over a time is due to the order of the occurrences:
they ascend for every schedule and from any instant on (`ascending_occurrences`).
-/

namespace RunScheduler

/-! ### Shortest beginnings -/

/-- The shortest beginning of a list with a property, or all of the list if it has none. -/
structure IsShortest {α : Type} (enough : List α → Prop) (whole front : List α) : Prop where
  isPrefix : front <+: whole
  enough_or_eq : enough front ∨ front = whole
  length_le : ∀ other, other <+: whole → enough other → front.length ≤ other.length

/-- A list none of whose beginnings is enough is the shortest itself. -/
theorem IsShortest.of_not_enough {α : Type} {enough : List α → Prop} {whole : List α}
    (h : ∀ front, front <+: whole → ¬ enough front) : IsShortest enough whole whole where
  isPrefix := List.prefix_refl whole
  enough_or_eq := Or.inr rfl
  length_le other hother henough := absurd henough (h other hother)

theorem IsShortest.of_snoc {α : Type} {enough : List α → Prop} {front rest : List α} {a : α}
    (h : ∀ other, other <+: front → ¬ enough other) (henough : enough (front ++ [a])) :
    IsShortest enough (front ++ [a] ++ rest) (front ++ [a]) where
  isPrefix := List.prefix_append _ _
  enough_or_eq := Or.inl henough
  length_le other hother hother' := by
    by_contra hshorter
    rw [List.length_append, List.length_singleton] at hshorter
    have hfront : front <+: front ++ [a] ++ rest :=
      (List.prefix_append _ _).trans (List.prefix_append _ _)
    exact h other (List.prefix_of_prefix_length_le hother hfront (by omega)) hother'

namespace Schedule

variable {s : Schedule} {now ceiling t : Instant} {b : Bounds}
  {taken : List Instant} {times : LazyList Instant}

/-! ### The order of occurrences -/

theorem exists_ofText?_of_compileRecurrence {start : Option Instant} {recurrence : Recurrence}
    {p : Cron.Pattern} (h : compileRecurrence start recurrence = .ok (.cron p)) :
    ∃ expression, Cron.ofText? expression = some p := by
  cases recurrence with
  | interval everySeconds anchor =>
    rw [compileRecurrence] at h
    split_ifs at h
    cases h
  | cron expression =>
    rw [compileRecurrence] at h
    split at h
    · rename_i read hread
      cases h
      exact ⟨_, hread⟩
    · cases h
  | rrule rule =>
    rw [compileRecurrence] at h
    split at h
    · cases h
    · split at h
      · cases h
      · cases h

theorem wellFormed_of_timing {p : Cron.Pattern} (h : s.timing = .cron p) : p.WellFormed := by
  have hcompiled := s.compiled
  rw [h, Definition.compile] at hcompiled
  have hread : compileRecurrence s.definition.start s.definition.recurrence = .ok (.cron p) := by
    split at hcompiled
    · split_ifs at hcompiled
      exact hcompiled
    · exact hcompiled
  obtain ⟨_, hread⟩ := exists_ofText?_of_compileRecurrence hread
  exact Cron.wellFormed_of_ofText? hread

theorem ascending_occurrences (s : Schedule) (now : Instant) :
    (s.occurrences now).toList.Pairwise (· < ·) := by
  have htiming : (s.timing.occurrences s.start now).toList.Pairwise (· < ·) := by
    cases hkind : s.timing with
    | interval i => exact i.pairwise_fromIndex _
    | rule r first => exact r.pairwise_occurrences first now
    | cron p =>
      rw [Timing.occurrences_cron]
      split
      · exact List.Pairwise.nil
      · exact Cron.Pattern.pairwise_occurrences (wellFormed_of_timing hkind) _
  unfold occurrences
  rw [LazyList.toList_takeWhile, LazyList.toList_filter]
  exact (htiming.filter _).sublist (List.takeWhile_sublist _)

theorem lt_of_mem_occurrences (h : t ∈ (s.occurrences now).toList) : now < t := by
  unfold occurrences at h
  rw [LazyList.toList_takeWhile, LazyList.toList_filter] at h
  have hmem := (List.mem_filter.mp ((List.takeWhile_prefix _).subset h)).2
  rw [Bool.and_eq_true] at hmem
  exact of_decide_eq_true hmem.1

/-! ### The loop -/

/-- Times are enough if their number is at its ceiling, or if they meet both floors. Without a
time, `now` has to meet the floor of time. -/
def Enough (b : Bounds) (now : Instant) (times : List Instant) : Prop :=
  b.maxRuns ≤ times.length ∨
    b.minRuns ≤ times.length ∧ horizon now b.minAhead ≤ times.getLast?.getD now

theorem enough_nil_iff : Enough b now [] ↔
    (decide (b.maxRuns = 0) || floorsMet b now 0 now) = true := by
  rw [Enough, floorsMet, List.length_nil, List.getLast?_nil, Option.getD_none, Bool.or_eq_true,
    Bool.and_eq_true, decide_eq_true_eq, decide_eq_true_eq, decide_eq_true_eq, Nat.le_zero]

theorem enough_reverse_cons_iff : Enough b now (t :: taken).reverse ↔
    (decide (b.maxRuns ≤ taken.length + 1) || floorsMet b now (taken.length + 1) t) = true := by
  rw [Enough, floorsMet, List.length_reverse, List.length_cons, List.getLast?_reverse,
    List.head?_cons, Option.getD_some, Bool.or_eq_true, Bool.and_eq_true, decide_eq_true_eq,
    decide_eq_true_eq, decide_eq_true_eq]

theorem isShortest_takeTimes (hasc : times.toList.Pairwise (· < ·))
    (hlater : ∀ last, taken.head? = some last → ∀ t ∈ times.toList, last < t)
    (hnot : ∀ front, front <+: taken.reverse → ¬ Enough b now front) :
    IsShortest (Enough b now) (taken.reverse ++ times.toList.filter (· ≤ ceiling))
      (takeTimes b now ceiling taken.length taken times) := by
  induction times generalizing taken with
  | nil =>
    rw [takeTimes, LazyList.toList_nil, List.filter_nil, List.append_nil]
    exact .of_not_enough hnot
  | cons t rest ih =>
    rw [LazyList.toList_cons] at hasc hlater ⊢
    have hkept (hle : t ≤ ceiling) :
        taken.reverse ++ (t :: (rest ()).toList).filter (· ≤ ceiling) =
          (t :: taken).reverse ++ (rest ()).toList.filter (· ≤ ceiling) := by
      rw [List.filter_cons, if_pos (decide_eq_true hle), List.reverse_cons, List.append_assoc,
        List.singleton_append]
    rw [takeTimes]
    split_ifs with hceiling hseen henough
    · -- The times that follow are too late as well.
      have hnone : (t :: (rest ()).toList).filter (· ≤ ceiling) = [] := by
        refine List.filter_eq_nil_iff.mpr fun u hu hle => ?_
        have hge : t ≤ u := by
          rcases List.mem_cons.mp hu with rfl | hu
          · exact Instant.le_refl u
          · exact Instant.le_of_lt (List.rel_of_pairwise_cons hasc hu)
        have hlt := Instant.lt_of_lt_of_le hceiling hge
        exact Instant.not_le.mpr hlt (of_decide_eq_true hle)
      rw [hnone, List.append_nil]
      exact .of_not_enough hnot
    · obtain ⟨last, hlast, hle⟩ := (Option.any_eq_true _ _).mp hseen
      have hlt := hlater last hlast t List.mem_cons_self
      exact absurd (of_decide_eq_true hle) (Instant.not_le.mpr hlt)
    · rw [hkept (Instant.not_lt.mp hceiling)]
      have hmet := enough_reverse_cons_iff.mpr henough
      rw [List.reverse_cons] at hmet ⊢
      exact .of_snoc hnot hmet
    · rw [hkept (Instant.not_lt.mp hceiling)]
      refine ih () hasc.of_cons (fun last hlast u hu => ?_) fun front hfront hmet => ?_
      · cases hlast
        exact List.rel_of_pairwise_cons hasc hu
      · rw [List.reverse_cons, List.prefix_concat_iff] at hfront
        rcases hfront with rfl | hfront
        · rw [← List.reverse_cons] at hmet
          exact henough (enough_reverse_cons_iff.mp hmet)
        · exact hnot front hfront hmet

/-! ### Evaluations -/

theorem le_ceiling_iff {stop : Option Instant} :
    t ≤ Schedule.ceiling stop now b ↔
      notAfter stop t = true ∧ t ≤ horizon now b.maxAhead := by
  cases stop with
  | none => simp only [Schedule.ceiling, notAfter, true_and]
  | some stop =>
    have hmin : min stop (horizon now b.maxAhead) =
        if stop ≤ horizon now b.maxAhead then stop else horizon now b.maxAhead := rfl
    rw [Schedule.ceiling, notAfter, decide_eq_true_eq, hmin]
    split_ifs with hle
    · exact ⟨fun h => ⟨h, Instant.le_trans h hle⟩, And.left⟩
    · have hlt := Instant.not_le.mp hle
      exact ⟨fun h => ⟨Instant.le_of_lt (Instant.lt_of_le_of_lt h hlt), h⟩, And.right⟩

/-- The occurrences up to both ceilings of time. -/
def inReach (s : Schedule) (now : Instant) (b : Bounds) : List Instant :=
  (s.occurrences now).toList.filter fun t => notAfter s.stop t && t ≤ horizon now b.maxAhead

/-- **An evaluation takes the shortest beginning that is enough.** It is taken of the occurrences
up to both ceilings of time, in their order, and all of them are taken if no beginning is enough.
So the times ascend, lie after `now` and up to the ceilings, and are no more than the ceiling on
their number allows, however floors and ceilings are at odds. -/
theorem evaluate_isShortest (s : Schedule) (now : Instant) (b : Bounds) :
    IsShortest (Enough b now) (s.inReach now b) (s.evaluate now b) ∧
      (s.evaluate now b).Pairwise (· < ·) ∧
      (∀ t ∈ s.evaluate now b,
        now < t ∧ notAfter s.stop t = true ∧ t ≤ horizon now b.maxAhead) ∧
      (s.evaluate now b).length ≤ b.maxRuns := by
  have hshortest : IsShortest (Enough b now) (s.inReach now b) (s.evaluate now b) := by
    rw [evaluate]
    split_ifs with hnone
    · exact ⟨List.nil_prefix, Or.inl (enough_nil_iff.mpr hnone), fun _ _ _ => Nat.zero_le _⟩
    · have hreach : s.inReach now b =
          (s.occurrences now).toList.filter (· ≤ ceiling s.stop now b) := by
        refine List.filter_congr fun t _ => ?_
        rw [Bool.eq_iff_iff, Bool.and_eq_true, decide_eq_true_eq, decide_eq_true_eq,
          le_ceiling_iff]
      have hnot (front : List Instant) (hfront : front <+: ([] : List Instant).reverse) :
          ¬ Enough b now front := by
        obtain rfl := List.prefix_nil.mp hfront
        exact fun hmet => hnone (enough_nil_iff.mp hmet)
      rw [hreach]
      refine isShortest_takeTimes (ascending_occurrences s now) ?_ hnot
      exact fun last hlast => nomatch hlast
  have hasc := (ascending_occurrences s now).filter
    fun t => notAfter s.stop t && decide (t ≤ horizon now b.maxAhead)
  refine ⟨hshortest, hasc.sublist hshortest.isPrefix.sublist, fun t ht => ?_, ?_⟩
  · obtain ⟨hmem, hreach⟩ := List.mem_filter.mp (hshortest.isPrefix.subset ht)
    rw [Bool.and_eq_true, decide_eq_true_eq] at hreach
    exact ⟨lt_of_mem_occurrences hmem, hreach⟩
  · by_contra hmore
    have hle := hshortest.length_le ((s.evaluate now b).take b.maxRuns)
      ((List.take_prefix _ _).trans hshortest.isPrefix)
      (Or.inl (by rw [List.length_take]; omega))
    rw [List.length_take] at hle
    omega

end Schedule

end RunScheduler
