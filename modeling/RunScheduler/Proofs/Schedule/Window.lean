import Mathlib.Data.List.Sort
import RunScheduler.Proofs.Schedule.Coverage

/-!
# The window of a schedule

A start and a stop of a schedule leave out what is earlier and what is later, and change nothing
else (`occurrences_of_window`). This takes a search that is told of the start to pass over nothing
from the start on (`Timing.mem_occurrences_iff`): an interval computes the index it begins at from
its distance to the start as well (`Interval.indexFrom_le`), and a cron search begins a second
ahead of the start.

A rule without a start of its own begins at that of the schedule, so that its occurrences do depend
on the window.
-/

namespace RunScheduler

/-! ### Intervals -/

namespace Interval

variable {i : Interval} {k : Nat} {t start after : Instant}

theorem indexFrom_le (hplain : start.nano < 1000000000) (hbefore : i.anchor < start)
    (h : i.nth? k = some t) (hle : start ≤ t) : i.indexFrom start ≤ k := by
  have hk : 0 < k := by
    by_contra hzero
    obtain rfl : k = 0 := by omega
    rw [nth?_eq, Nat.zero_mul, Int.natCast_zero, Instant.addSeconds?_zero,
      Option.some.injEq] at h
    rw [h] at hbefore
    exact Instant.lt_irrefl t (Instant.lt_of_lt_of_le hbefore hle)
  have hevery : 0 < (i.every : Int) * 1000 := by
    have := i.every_pos
    omega
  have hmillis : start.millisSince i.anchor ≤ k * (i.every * 1000) := by
    have hnanos : start.nanosSince i.anchor ≤ k * i.every * 1000000000 := by
      have hdistance := nanosSince_anchor_le hplain hk h
      rw [Instant.le_def] at hle
      omega
    have hquotient := Int.tdiv_le_tdiv (c := 1000000) (by decide) hnanos
    have hunits : (k : Int) * i.every * 1000000000 = k * (i.every * 1000) * 1000000 := by
      rw [← Int.mul_assoc, Int.mul_assoc (k * i.every)]
      rfl
    rw [hunits, Int.mul_tdiv_cancel _ (by decide)] at hquotient
    exact hquotient
  unfold indexFrom
  dsimp only
  generalize (i.every : Int) * 1000 = period at hevery hmillis
  generalize start.millisSince i.anchor = distance at hmillis
  split_ifs with hwhole
  · rw [Int.add_zero]
    exact Int.ediv_le_of_le_mul hevery hmillis
  · have hne : distance ≠ k * period := fun heq => hwhole (by rw [heq, Int.mul_emod_left])
    have hlt : distance / period < k :=
      Int.ediv_lt_of_lt_mul hevery (Int.lt_iff_le_and_ne.mpr ⟨hmillis, hne⟩)
    omega

theorem mem_occurrences_iff {start : Option Instant} (hafter : after.nano < 1000000000)
    (hstart : ∀ a ∈ start, a.nano < 1000000000) (hlt : after < t) (hle : ∀ a ∈ start, a ≤ t) :
    t ∈ (i.occurrences after start).toList ↔ ∃ k, i.nth? k = some t := by
  refine mem_fromIndex_iff.trans ⟨fun ⟨k, _, hk⟩ => ⟨k, hk⟩, fun ⟨k, hk⟩ => ⟨k, ?_, hk⟩⟩
  have hindex := indexAfter_le hafter hk hlt
  unfold firstIndex
  cases start with
  | none =>
    dsimp only
    omega
  | some start =>
    dsimp only
    split_ifs with hbefore
    · have hfrom := indexFrom_le (hstart start rfl) hbefore hk (hle start rfl)
      omega
    · omega

end Interval

namespace Schedule

variable {timing : Timing} {bare : Schedule} {start stop : Option Instant} {after t : Instant}
  {l : List Instant}

/-! ### Searches that know the start -/

/-- A rule that begins at a start of its own. -/
def Timing.OwnsStart : Timing → Prop
  | .rule r _ => r.start?.isSome = true
  | _ => True

theorem notBefore_iff : notBefore start t = true ↔ ∀ a ∈ start, a ≤ t := by
  cases start with
  | none => exact iff_of_true rfl fun _ h => nomatch h
  | some start =>
    rw [notBefore, decide_eq_true_eq]
    exact ⟨fun hle a ha => Option.some.inj ha ▸ hle, fun hle => hle start rfl⟩

theorem searchedAfter_isSome (hstart : ∀ a ∈ start, a.isLeap = false)
    (hroom : ∀ a ∈ start, Calendar.firstDay * 86400 + 1 ≤ a.second) :
    (searchedAfter start after).isSome = true := by
  cases start with
  | none => rfl
  | some start =>
    unfold searchedAfter
    dsimp only
    split_ifs
    · have hplain : start.nano < 1000000000 :=
        Nat.not_le.mp (of_decide_eq_false (hstart start rfl))
      have hahead := hroom start rfl
      have hend := start.lt_end
      unfold Instant.addSeconds?
      rw [if_pos hplain, Instant.of?_isSome_iff]
      omega
    · rfl

/-- From the start on a search that knows it yields what one yields that does not. -/
theorem Timing.mem_occurrences_iff (hafter : after.isLeap = false)
    (hstart : ∀ a ∈ start, a.isLeap = false)
    (hroom : ∀ a ∈ start, Calendar.firstDay * 86400 + 1 ≤ a.second)
    (hexact : timing.SearchedExactly start after) (hexact' : timing.SearchedExactly none after)
    (hlt : after < t) (hle : notBefore start t = true) :
    t ∈ (timing.occurrences start after).toList ↔ t ∈ (timing.occurrences none after).toList := by
  have hplain : ∀ {a : Instant}, a.isLeap = false → a.nano < 1000000000 :=
    fun h => Nat.not_le.mp (of_decide_eq_false h)
  cases timing with
  | rule r first => rfl
  | interval i =>
    have hnone {P : Instant → Prop} : ∀ a ∈ (none : Option Instant), P a := fun _ h => nomatch h
    have hsome := Interval.mem_occurrences_iff (i := i) (hplain hafter)
      (fun a ha => hplain (hstart a ha)) hlt (notBefore_iff.mp hle)
    exact hsome.trans (Interval.mem_occurrences_iff (hplain hafter) hnone hlt hnone).symm
  | cron p =>
    have hsome : (searchedAfter start after).isSome = true := searchedAfter_isSome hstart hroom
    obtain ⟨first, hfirst⟩ := Option.isSome_iff_exists.mp hsome
    have hearlier := lt_of_searchedAfter hfirst hle hlt
    rw [occurrences_cron, occurrences_cron, hfirst]
    show t ∈ (p.occurrences first).toList ↔ t ∈ (p.occurrences after).toList
    rw [(hexact p rfl first hfirst).mem_iff, (hexact' p rfl after rfl).mem_iff,
      and_iff_left hearlier, and_iff_left hlt]

/-! ### The window -/

theorem compileRecurrence_eq_of_ownsStart {recurrence : Recurrence}
    (h : compileRecurrence none recurrence = .ok timing) (howns : timing.OwnsStart) :
    compileRecurrence start recurrence = .ok timing := by
  cases recurrence with
  | interval everySeconds anchor => exact h
  | cron expression => exact h
  | rrule rule =>
    unfold compileRecurrence at h ⊢
    cases hread : Rule.ofText rule.toList with
    | error e =>
      simp only [hread] at h
      cases h
    | ok r =>
      simp only [hread] at h ⊢
      cases hown : r.start? with
      | some own =>
        simp only [ruleStart, hown] at h ⊢
        exact h
      | none =>
        split at h
        · cases h
        · cases h
          rw [Timing.OwnsStart, hown] at howns
          cases howns

theorem compile_of_ordered {d : Definition} (h : ∀ a ∈ d.start, ∀ b ∈ d.stop, a ≤ b) :
    d.compile = compileRecurrence d.start d.recurrence := by
  unfold Definition.compile
  split
  · rename_i start stop hstart hstop
    rw [if_neg (Instant.not_lt.mpr (h start hstart stop hstop))]
  · rfl

theorem takeWhile_notAfter (h : l.Pairwise (· < ·)) :
    l.takeWhile (notAfter stop) = l.filter (notAfter stop) := by
  induction l with
  | nil => rfl
  | cons t l ih =>
    rw [List.takeWhile_cons, List.filter_cons]
    split_ifs with htime
    · rw [ih h.of_cons]
    · refine (List.filter_eq_nil_iff.mpr fun u hu htime' => htime ?_).symm
      have hlt : t < u := List.rel_of_pairwise_cons h hu
      cases stop with
      | none => rfl
      | some stop =>
        have hle : u ≤ stop := of_decide_eq_true htime'
        exact decide_eq_true (Instant.le_trans (Instant.le_of_lt hlt) hle)

theorem toList_occurrences (s : Schedule) (hexact : s.timing.SearchedExactly s.start after) :
    (s.occurrences after).toList =
      (s.timing.occurrences s.start after).toList.filter fun t =>
        (decide (after < t) && notBefore s.start t) && notAfter s.stop t := by
  have hasc := (Timing.pairwise_occurrences hexact).filter
    fun t => decide (after < t) && notBefore s.start t
  unfold occurrences
  rw [LazyList.toList_takeWhile, LazyList.toList_filter, takeWhile_notAfter hasc,
    List.filter_filter]
  exact List.filter_congr fun t _ => Bool.and_comm _ _

instance : Std.Irrefl (α := Instant) (· < ·) := ⟨Instant.lt_irrefl⟩

instance : Std.Antisymm (α := Instant) (· < ·) :=
  ⟨fun t _ h h' => absurd (Instant.lt_trans h h') (Instant.lt_irrefl t)⟩

/-- **The window of a schedule is a filter.** A valid schedule without start and stop stays valid
with any of them that are in order, and its occurrences after an instant are then those it had,
kept to the window. A rule has to begin at a start of its own. -/
theorem occurrences_of_window (hbare : bare.start = none ∧ bare.stop = none)
    (howns : bare.timing.OwnsStart) (horder : ∀ a ∈ start, ∀ b ∈ stop, a ≤ b)
    (hafter : after.isLeap = false) (hstart : ∀ a ∈ start, a.isLeap = false)
    (hroom : ∀ a ∈ start, Calendar.firstDay * 86400 + 1 ≤ a.second)
    (hexact : bare.timing.SearchedExactly start after)
    (hexact' : bare.timing.SearchedExactly none after) :
    ∃ s : Schedule, s.definition = ⟨bare.definition.recurrence, start, stop⟩ ∧
      (s.occurrences after).toList =
        (bare.occurrences after).toList.filter (fun t => notBefore start t && notAfter stop t) ∧
      (s.occurrences after).toList.Pairwise (· < ·) := by
  have hcompiled : (Definition.mk bare.definition.recurrence start stop).compile =
      .ok bare.timing := by
    have hnone : bare.definition.start = none := hbare.1
    have hbareCompiled := bare.compiled
    rw [compile_of_ordered (by rw [hnone]; exact fun _ h => nomatch h), hnone] at hbareCompiled
    rw [compile_of_ordered horder]
    exact compileRecurrence_eq_of_ownsStart hbareCompiled howns
  refine ⟨⟨_, bare.timing, hcompiled⟩, rfl, ?_, pairwise_occurrences hexact⟩
  rw [← hbare.1] at hexact'
  refine (pairwise_occurrences hexact).eq_of_mem_iff
    ((pairwise_occurrences hexact').filter _) fun t => ?_
  rw [List.mem_filter, toList_occurrences _ hexact, toList_occurrences _ hexact',
    List.mem_filter, List.mem_filter, hbare.1, hbare.2]
  rw [hbare.1] at hexact'
  simp only [Schedule.start, Schedule.stop, Bool.and_eq_true, decide_eq_true_eq]
  have hsame := Timing.mem_occurrences_iff (t := t) hafter hstart hroom hexact hexact'
  constructor
  · rintro ⟨hmem, ⟨hlt, hle⟩, hstop⟩
    exact ⟨⟨(hsame hlt hle).mp hmem, ⟨hlt, rfl⟩, rfl⟩, hle, hstop⟩
  · rintro ⟨⟨hmem, ⟨hlt, -⟩, -⟩, hle, hstop⟩
    exact ⟨(hsame hlt hle).mpr hmem, ⟨hlt, hle⟩, hstop⟩

/-- From one to two o'clock. -/
theorem occurrences_of_window_of_hours :
    ∃ s : Schedule,
      s.definition = ⟨onTheHour.definition.recurrence, some oneOClock, some twoOClock⟩ ∧
      (s.occurrences .epoch).toList = (onTheHour.occurrences .epoch).toList.filter
        (fun t => notBefore (some oneOClock) t && notAfter (some twoOClock) t) ∧
      (s.occurrences .epoch).toList.Pairwise (· < ·) := by
  have hfirst : searchedAfter (some oneOClock) .epoch = oneOClock.addSeconds? (-1) := by decide
  refine occurrences_of_window ⟨rfl, rfl⟩ trivial (by decide) (by decide) (by decide) (by decide)
    (searchedExactly_onTheHour fun first h => ?_) (searchedExactly_onTheHour fun first h => ?_)
  · rw [hfirst] at h
    have hsecond := (Instant.addSeconds?_second h).1
    have hone : oneOClock.second = 3600 := rfl
    omega
  · cases h
    decide

end Schedule

end RunScheduler
