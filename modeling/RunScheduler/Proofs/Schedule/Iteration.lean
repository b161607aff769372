import RunScheduler.Proofs.Recurrence.Iteration
import RunScheduler.Proofs.Schedule.PlainRules
import RunScheduler.Schedule.Evaluation

/-!
# Evaluations that come to an end

An evaluation of a schedule with a rule asks for one occurrence after another until there are enough
or none is left (`Evaluates`). Each of the calls returns, and there are only finitely many
occurrences, so an evaluation comes to an end whatever it is told by the schedule and the bounds: it
may want more times than there are, and it may pass over each of them (`expansion_ends`).
-/

namespace RunScheduler

namespace LazyList

variable {α : Type}

/-- A list as a lazy one. -/
def ofList : List α → LazyList α
  | [] => .nil
  | a :: l => .cons a fun _ => ofList l

theorem ofList_toList (s : LazyList α) : ofList s.toList = s := by
  induction s with
  | nil => rfl
  | cons a rest ih =>
    rw [toList_cons, ofList, ih ()]

end LazyList

namespace Schedule

variable (s : Schedule) (now : Instant) (b : Bounds)

/-- What an evaluation does with what a call returned: it goes on with the times taken so far, the
last in front, or it is done with the times in order. -/
def pull (taken : List Instant) : Option Instant → List Instant ⊕ List Instant
  | none => .inr taken.reverse
  | some t =>
    if !(decide (now < t) && notBefore s.start t) then .inl taken
    else if !notAfter s.stop t then .inr taken.reverse
    else if ceiling s.stop now b < t then .inr taken.reverse
    else if taken.head?.any (t ≤ ·) then .inl taken
    else if b.maxRuns ≤ taken.length + 1 || floorsMet b now (taken.length + 1) t then
      .inr (t :: taken).reverse
    else .inl (t :: taken)

/-- The occurrences of a list that are in the window of the schedule. -/
def window (times : LazyList Instant) : LazyList Instant :=
  (times.filter fun t => decide (now < t) && notBefore s.start t).takeWhile (notAfter s.stop)

variable {s now b} {r : Rule} {first : Instant}

/-- An evaluation goes on by calls that go through so many rounds, until it is done. -/
inductive Pulls (s : Schedule) (now : Instant) (b : Bounds) (r : Rule) (first : Instant) :
    Rule.Cursor → List Instant → Nat → List Instant → Prop
  | enough {c c' : Rule.Cursor} {taken times : List Instant} {rounds : Nat} {out : Option Instant}
      (h : Rule.Returns r first now c rounds out c') (hpull : s.pull now b taken out = .inr times) :
      Pulls s now b r first c taken rounds times
  | more {c c' : Rule.Cursor} {taken taken' times : List Instant} {rounds rounds' : Nat}
      {out : Option Instant} (h : Rule.Returns r first now c rounds out c')
      (hpull : s.pull now b taken out = .inl taken')
      (hrest : Pulls s now b r first c' taken' rounds' times) :
      Pulls s now b r first c taken (rounds + rounds') times

/-- The evaluation of a schedule whose timing is a rule: it has enough at once, or it asks for
occurrences from the first on. -/
inductive Evaluates (s : Schedule) (now : Instant) (b : Bounds) (r : Rule) (first : Instant) :
    Nat → List Instant → Prop
  | atOnce (h : (b.maxRuns = 0 || floorsMet b now 0 now) = true) :
      Evaluates s now b r first 0 []
  | byCalls {rounds : Nat} {times : List Instant}
      (h : (b.maxRuns = 0 || floorsMet b now 0 now) = false)
      (hpulls : Pulls s now b r first (.first r first now) [] rounds times) :
      Evaluates s now b r first rounds times

theorem takeTimes_window_cons (taken : List Instant) (t : Instant) (rest : List Instant) :
    takeTimes b now (ceiling s.stop now b) taken.length taken
        (s.window now (.ofList (t :: rest))) =
      Sum.elim (fun taken' => takeTimes b now (ceiling s.stop now b) taken'.length taken'
        (s.window now (.ofList rest))) id (s.pull now b taken (some t)) := by
  rw [window, LazyList.ofList, LazyList.filter, pull]
  cases hwindow : decide (now < t) && notBefore s.start t with
  | false => rfl
  | true =>
    rw [if_pos rfl, LazyList.takeWhile]
    cases hstop : notAfter s.stop t with
    | false => rfl
    | true =>
      rw [if_pos rfl, takeTimes]
      simp only [Bool.not_true, Bool.false_eq_true, if_false]
      split_ifs <;> rfl

theorem exists_pulls (s : Schedule) (now : Instant) (b : Bounds) (r : Rule) (first : Instant)
    (c : Rule.Cursor) (taken : List Instant) :
    ∃ rounds, Pulls s now b r first c taken rounds
        (takeTimes b now (ceiling s.stop now b) taken.length taken
          (s.window now (.ofList (r.remaining first now c)))) ∧
      rounds ≤ r.left first c + 1 := by
  induction hremaining : r.remaining first now c generalizing c taken with
  | nil =>
    obtain ⟨rounds, c', hreturns, -, hrounds⟩ := Rule.exists_returns r first now c
    rw [hremaining] at hreturns hrounds
    exact ⟨rounds, .enough hreturns rfl, by simp at hrounds; omega⟩
  | cons t rest ih =>
    obtain ⟨rounds, c', hreturns, hrest, hrounds⟩ := Rule.exists_returns r first now c
    rw [hremaining] at hreturns hrest hrounds
    rw [if_neg (List.cons_ne_nil _ _)] at hrounds
    rw [takeTimes_window_cons]
    cases hpull : s.pull now b taken (some t) with
    | inr times => exact ⟨rounds, .enough hreturns hpull, by omega⟩
    | inl taken' =>
      obtain ⟨rounds', hpulls, hrounds'⟩ := ih c' taken' hrest
      exact ⟨rounds + rounds', .more hreturns hpull hpulls, by omega⟩

/-- **Expansion always ends.**

No period from `periodLimit` on is in the calendar. So from any cursor a call returns, and from the
first one on any number of calls return the occurrences of the rule one after another and then
nothing any more; however many calls there are, the rounds they go through are bounded by what was
left to do at the start, and one for each call. The counters stay in their range.

An evaluation of a schedule with a rule comes to an end within as many rounds, whatever its bounds
and its window. -/
theorem expansion_ends :
    (∀ (r : Rule) (start after : Instant),
      (∀ period, Rule.periodLimit ≤ period → r.candidates start period = none) ∧
      (∀ c, ∃ rounds out c', Rule.Returns r start after c rounds out c' ∧
        rounds ≤ r.left start c + 1) ∧
      ∀ calls, ∃ rounds c', Rule.Calls r start after (.first r start after) rounds
          ((List.range calls).map fun i => (r.occurrences start after).toList[i]?) c' ∧
        rounds ≤ r.left start (.first r start after) + calls ∧ c'.InRange r) ∧
    ∀ (s : Schedule) (now : Instant) (b : Bounds) (r : Rule) (first : Instant),
      s.timing = .rule r first → ∃ rounds, Evaluates s now b r first rounds (s.evaluate now b) ∧
        rounds ≤ r.left first (.first r first now) + 1 := by
  refine ⟨fun r start after => ⟨fun period hle => ?_, fun c => ?_, fun calls => ?_⟩,
    fun s now b r first htiming => ?_⟩
  · by_contra hsome
    obtain ⟨l, hl⟩ := Option.ne_none_iff_exists'.mp hsome
    exact absurd (Rule.lt_periodLimit hl) (Nat.not_lt.mpr hle)
  · obtain ⟨rounds, c', hreturns, -, hrounds⟩ := Rule.exists_returns r start after c
    exact ⟨rounds, _, c', hreturns, by split_ifs at hrounds <;> omega⟩
  · obtain ⟨rounds, c', hcalls, hrounds⟩ :=
      Rule.exists_calls r start after (.first r start after) calls
    rw [Rule.remaining_first] at hcalls
    exact ⟨rounds, c', hcalls, hrounds, hcalls.inRange (Rule.inRange_first r start after)⟩
  · rw [evaluate]
    split_ifs with hnow
    · exact ⟨0, .atOnce hnow, Nat.zero_le _⟩
    · obtain ⟨rounds, hpulls, hrounds⟩ :=
        exists_pulls s now b r first (.first r first now) []
      have htimes : s.window now (.ofList (r.remaining first now (.first r first now))) =
          s.occurrences now := by
        rw [Rule.remaining_first, LazyList.ofList_toList, occurrences, htiming]
        rfl
      rw [htimes] at hpulls
      exact ⟨rounds, .byCalls (Bool.not_eq_true _ ▸ hnow) hpulls, hrounds⟩

/-- Every twenty-fourth hour, if it is five o'clock. -/
def fiveOClock : Rule where
  frequency := .hourly
  interval := 24
  count := none
  until? := none
  byDay := []
  byMonthDay := []
  byHour := [5]
  byMinute := []
  start? := none
  interval_pos := by decide

theorem ofText_fiveOClock :
    Rule.ofText "FREQ=HOURLY;INTERVAL=24;BYHOUR=5".toList = .ok fiveOClock := by
  decide

/-- Begun at midnight, when the hour is never five. -/
def neverFive : Schedule := ofRule ofText_fiveOClock rfl .epoch

theorem candidates_fiveOClock {period : Nat} {l : List Instant}
    (h : fiveOClock.candidates .epoch period = some l) : l = [] := by
  obtain ⟨offered, hoffered, rfl⟩ := Option.map_eq_some_iff.mp h
  simp only [Rule.offers, fiveOClock, List.isEmpty_nil, if_true] at hoffered
  obtain ⟨t, ht, rfl⟩ := Option.map_eq_some_iff.mp hoffered
  have hhour : t.hour = 0 := by
    have hsecond := Instant.addSeconds?_second ht
    simp only [Instant.epoch] at hsecond
    rw [Instant.hour, Instant.secondOfDay]
    omega
  have hrefused : fiveOClock.allows t = false := by
    rw [Rule.allows, hhour]
    rfl
  rw [List.filter_cons_of_neg (by simp [hrefused])]
  rfl

/-- The evaluation ends and finds nothing, though neither the rule nor the schedule has an end. -/
theorem expansion_ends_neverFive :
    neverFive.timing = .rule fiveOClock .epoch ∧
    (∀ period, Rule.periodLimit ≤ period → fiveOClock.candidates .epoch period = none) ∧
    ∃ rounds, Evaluates neverFive .epoch {} fiveOClock .epoch rounds [] := by
  obtain ⟨hrule, hschedule⟩ := expansion_ends
  have htiming : neverFive.timing = .rule fiveOClock .epoch := rfl
  have hnone : (neverFive.occurrences .epoch).toList = [] := by
    have hunrolled : fiveOClock.unrolled .epoch 0 = [] := by
      refine List.eq_nil_iff_forall_not_mem.mpr fun t ht => ?_
      obtain ⟨_, l, _, hl, hmem⟩ := Rule.mem_unrolled_iff.mp ht
      rw [candidates_fiveOClock hl] at hmem
      cases hmem
    have hexpand := fiveOClock.expand_isPrefix .epoch 0
    rw [hunrolled, List.prefix_nil] at hexpand
    have hskipped : fiveOClock.skipped .epoch .epoch = 0 := by decide
    rw [toList_occurrences_of_rule htiming rfl, Rule.toList_occurrences_eq_cut, hskipped, hexpand]
    rfl
  have hevaluate : neverFive.evaluate .epoch {} = [] := by
    rw [evaluate, ← LazyList.ofList_toList (neverFive.occurrences .epoch), hnone]
    rfl
  obtain ⟨rounds, hevaluates, _⟩ := hschedule neverFive .epoch {} fiveOClock .epoch htiming
  rw [hevaluate] at hevaluates
  exact ⟨htiming, (hrule fiveOClock .epoch .epoch).1, rounds, hevaluates⟩

end Schedule

end RunScheduler
