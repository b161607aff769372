import RunScheduler.Proofs.Instant.Parts
import RunScheduler.Proofs.Recurrence.Expansion

/-!
# Occurrences one at a time

Whoever wants the occurrences of a rule asks for one after another. In between, a `Cursor` holds the
period that is to come, the candidates that are not dealt with, and what has been counted. Each call
goes through rounds (`turn`): a round deals with one candidate, or else fetches the candidates of
the next period.

Every call returns (`exists_returns`). A round that does not return leaves less to do (`left`): a
candidate fewer, or a period fewer before the end of the calendar, whose candidates become pending
in its place. The number of empty periods is no part of this, as it begins anew with every candidate;
giving up only makes the end come sooner.

What the calls return are the occurrences of the rule and then nothing any more (`exists_calls`).
-/

namespace RunScheduler.Rule

/-- Where the search for the next occurrence goes on. -/
structure Cursor where
  /-- The period to come. -/
  period : Nat
  /-- The candidates of the period before that are not dealt with. -/
  pending : List Instant := []
  /-- How many occurrences there were, if the rule has a count. -/
  counted : Nat := 0
  /-- How many periods without a candidate there were in a row. -/
  empty : Nat := 0
  /-- No period is to be looked at any more. -/
  done : Bool := false

namespace Cursor

/-- Where the search for the occurrences after an instant begins. -/
def first (r : Rule) (start after : Instant) : Cursor :=
  { period := r.skipped start after }

/-- No candidate is wanted any more. -/
def finish (c : Cursor) : Cursor :=
  { c with pending := [], done := true }

end Cursor

variable (r : Rule) (start after : Instant) (c : Cursor)

/-! ### Rounds -/

/-- Counts a candidate, in front of others, as an occurrence. -/
def tally (rest : List Instant) : Cursor :=
  { c with pending := rest, counted := if r.count.isSome then c.counted + 1 else c.counted }

/-- A round deals with a candidate. It returns one that is wanted; it returns nothing and finishes
at one that is behind the last occurrence. -/
def pop (t : Instant) (rest : List Instant) : Cursor ⊕ (Option Instant × Cursor) :=
  if t < start then .inl { c with pending := rest }
  else if !r.notPast t || r.count.any (· ≤ c.counted) then .inr (none, c.finish)
  else if t ≤ after then .inl (r.tally c rest)
  else .inr (some t, r.tally c rest)

/-- A round fetches the candidates of the next period. -/
def fetch : Cursor :=
  match r.candidates start c.period with
  | none => { c with period := c.period + 1, done := true }
  | some [] => { c with
      period := c.period + 1
      empty := c.empty + 1
      done := decide (maxEmptyPeriods < c.empty + 1) }
  | some l => { c with period := c.period + 1, empty := 0, pending := l }

/-- One round: it goes on with a cursor, or returns with one. -/
def turn : Cursor ⊕ (Option Instant × Cursor) :=
  match c.pending with
  | t :: rest => r.pop start after c t rest
  | [] => if c.done then .inr (none, c) else .inl (r.fetch start c)

/-! ### What is still to come -/

/-- The candidates still to come. -/
def ahead : List Instant :=
  c.pending ++ if c.done then [] else (r.expand start c.period c.empty).toList

/-- What the count leaves of a list, after so many occurrences. -/
def uncut (counted : Nat) (l : List Instant) : List Instant :=
  match r.count with
  | none => l
  | some n => l.take (n - counted)

/-- The occurrences still to come. -/
def remaining : List Instant :=
  (r.uncut c.counted (((r.ahead start c).filter (start ≤ ·)).takeWhile r.notPast)).filter (after < ·)

/-- How much is left to do: pending candidates, and while there are periods to look at, their
candidates and the periods up to the end of the calendar. -/
def left : Nat :=
  c.pending.length +
    if c.done then 0
    else 1 + (r.unrolled start c.period).length + (periodLimit - c.period)

variable {r start after c}

theorem remaining_first : r.remaining start after (.first r start after) =
    (r.occurrences start after).toList := by
  rw [toList_occurrences_eq_cut, remaining, uncut, cut]
  cases r.count <;> rfl

theorem ahead_fetch (hpending : c.pending = []) (hdone : c.done = false) :
    r.ahead start (r.fetch start c) = r.ahead start c := by
  rw [ahead, ahead, hdone, fetch]
  split
  · rename_i h
    rw [expand_of_none h]
    simp [hpending]
  · rename_i h
    rw [expand_of_empty h]
    by_cases hstop : maxEmptyPeriods ≤ c.empty
    · simp [hpending, hstop, Nat.lt_succ_of_le hstop]
    · have hgo : ¬ maxEmptyPeriods < c.empty + 1 := fun h => hstop (Nat.le_of_lt_succ h)
      simp only [hpending, hgo, hstop, decide_false, Bool.false_eq_true, if_false]
  · rename_i l hne h
    obtain ⟨t, l, rfl⟩ := List.exists_cons_of_ne_nil hne
    rw [expand_of_cons h]
    simp [hpending, hdone]

theorem left_fetch_lt (hpending : c.pending = []) (hdone : c.done = false) :
    r.left start (r.fetch start c) < r.left start c := by
  rw [left, left, hdone, hpending, fetch]
  split
  · simp only [hpending, List.length_nil, if_true, Bool.false_eq_true, if_false]
    omega
  · rename_i h
    have hlt := lt_periodLimit h
    rw [unrolled_of_some h, List.nil_append]
    simp only [hpending, List.length_nil, decide_eq_true_eq, Bool.false_eq_true, if_false]
    split_ifs <;> omega
  · rename_i l _ h
    have hlt := lt_periodLimit h
    rw [unrolled_of_some h, List.length_append]
    simp only [hdone, List.length_nil, Bool.false_eq_true, if_false]
    omega

theorem uncut_of_full {counted : Nat} (h : r.count.any (· ≤ counted) = true) (l : List Instant) :
    r.uncut counted l = [] := by
  rw [uncut]
  cases hcount : r.count with
  | none => rw [hcount] at h; cases h
  | some n =>
    rw [hcount] at h
    have hle : n ≤ counted := by simpa using h
    dsimp only
    rw [Nat.sub_eq_zero_of_le hle, List.take_zero]

theorem uncut_cons {counted : Nat} (h : r.count.any (· ≤ counted) = false) (t : Instant)
    (l : List Instant) :
    r.uncut counted (t :: l) =
      t :: r.uncut (if r.count.isSome then counted + 1 else counted) l := by
  rw [uncut, uncut]
  cases hcount : r.count with
  | none => rfl
  | some n =>
    rw [hcount] at h
    have hlt : counted < n := by simpa using h
    obtain ⟨m, hm⟩ : ∃ m, n - counted = m + 1 := ⟨n - counted - 1, by omega⟩
    have hnext : n - (counted + 1) = m := by omega
    simp only [Option.isSome_some, if_true, hm, hnext, List.take_succ_cons]

theorem remaining_finish : r.remaining start after c.finish = [] := by
  rw [remaining, ahead, Cursor.finish, uncut]
  cases r.count <;> simp

/-- What a round does: it goes on with less to do, it returns the next occurrence, or it returns
nothing as none is left. -/
inductive Progress (r : Rule) (start after : Instant) (c : Cursor) :
    Cursor ⊕ (Option Instant × Cursor) → Prop
  | on {c' : Cursor} (hless : r.left start c' < r.left start c)
      (hsame : r.remaining start after c' = r.remaining start after c) :
      Progress r start after c (.inl c')
  | found {t : Instant} {c' : Cursor} (hless : r.left start c' < r.left start c)
      (hfirst : r.remaining start after c = t :: r.remaining start after c') :
      Progress r start after c (.inr (some t, c'))
  | ended {c' : Cursor} (hle : r.left start c' ≤ r.left start c)
      (hnone : r.remaining start after c = []) (hnone' : r.remaining start after c' = []) :
      Progress r start after c (.inr (none, c'))

theorem progress_pop {t : Instant} {rest : List Instant} (hpending : c.pending = t :: rest) :
    Progress r start after c (r.pop start after c t rest) := by
  have hleft {counted : Nat} :
      r.left start { c with pending := rest, counted := counted } < r.left start c := by
    rw [left, left, hpending, List.length_cons]
    dsimp only
    omega
  have hahead (counted : Nat) :
      r.ahead start c = t :: r.ahead start { c with pending := rest, counted := counted } := by
    rw [ahead, hpending]
    rfl
  rw [pop]
  -- An instant is earlier than the start, beyond the end, only counted, or found.
  split_ifs with hearly hover hold
  · refine .on hleft ?_
    rw [remaining, remaining, hahead c.counted,
      List.filter_cons_of_neg (by simpa using Instant.not_le.mpr hearly)]
  · refine .ended (Nat.zero_le _) ?_ remaining_finish
    rw [remaining, hahead c.counted,
      List.filter_cons_of_pos (by simpa using Instant.not_lt.mp hearly)]
    rcases Bool.or_eq_true _ _ ▸ hover with hpast | hfull
    · rw [List.takeWhile_cons_of_neg (by simpa using hpast), uncut]
      cases r.count <;> simp
    · rw [uncut_of_full hfull, List.filter_nil]
  all_goals
    rw [Bool.not_eq_true, Bool.or_eq_false_iff] at hover
    have hkept : ((r.ahead start c).filter (start ≤ ·)).takeWhile r.notPast =
        t :: ((r.ahead start (r.tally c rest)).filter (start ≤ ·)).takeWhile r.notPast := by
      rw [hahead, List.filter_cons_of_pos (by simpa using Instant.not_lt.mp hearly),
        List.takeWhile_cons_of_pos (by simpa using hover.1), tally]
  · refine .on hleft ?_
    rw [remaining, remaining, hkept, uncut_cons hover.2,
      List.filter_cons_of_neg (by simpa using Instant.not_lt.mpr hold)]
    rfl
  · refine .found hleft ?_
    rw [remaining, remaining, hkept, uncut_cons hover.2,
      List.filter_cons_of_pos (by simpa using Instant.not_le.mp hold)]
    rfl

theorem progress_turn (r : Rule) (start after : Instant) (c : Cursor) :
    Progress r start after c (r.turn start after c) := by
  rw [turn]
  cases hpending : c.pending with
  | cons t rest => exact progress_pop hpending
  | nil =>
    cases hdone : c.done with
    | false =>
      have hcounted : (r.fetch start c).counted = c.counted := by
        rw [fetch]
        split <;> rfl
      refine .on (left_fetch_lt hpending hdone) ?_
      rw [remaining, remaining, ahead_fetch hpending hdone, hcounted]
    | true =>
      have hnone : r.remaining start after c = [] := by
        rw [remaining, ahead, hpending, hdone, uncut]
        cases r.count <;> simp
      exact .ended (Nat.le_refl _) hnone hnone

/-! ### Calls -/

/-- A call goes through so many rounds, the last of which returns this and leaves a cursor. -/
inductive Returns (r : Rule) (start after : Instant) :
    Cursor → Nat → Option Instant → Cursor → Prop
  | now {c c' : Cursor} {out : Option Instant} (h : r.turn start after c = .inr (out, c')) :
      Returns r start after c 1 out c'
  | later {c c' c'' : Cursor} {rounds : Nat} {out : Option Instant}
      (h : r.turn start after c = .inl c') (hrest : Returns r start after c' rounds out c'') :
      Returns r start after c (rounds + 1) out c''

/-- Calls one after another, and the rounds of all of them. -/
inductive Calls (r : Rule) (start after : Instant) :
    Cursor → Nat → List (Option Instant) → Cursor → Prop
  | nil (c : Cursor) : Calls r start after c 0 [] c
  | cons {c c' c'' : Cursor} {rounds rounds' : Nat} {out : Option Instant}
      {outs : List (Option Instant)} (h : Returns r start after c rounds out c')
      (hrest : Calls r start after c' rounds' outs c'') :
      Calls r start after c (rounds + rounds') (out :: outs) c''

/-- Every call returns: with the first of the occurrences that are still to come, if there is one,
and with less to do. Only when it finds none it needs a round more. -/
theorem exists_returns (r : Rule) (start after : Instant) (c : Cursor) :
    ∃ rounds c', Returns r start after c rounds (r.remaining start after c).head? c' ∧
      r.remaining start after c' = (r.remaining start after c).tail ∧
      rounds + r.left start c' ≤
        r.left start c + if r.remaining start after c = [] then 1 else 0 := by
  induction hleft : r.left start c using Nat.strong_induction_on generalizing c with
  | _ n ih =>
    subst hleft
    have hprogress := progress_turn r start after c
    cases hturn : r.turn start after c with
    | inl c' =>
      rw [hturn] at hprogress
      obtain ⟨hless, hsame⟩ := hprogress
      obtain ⟨rounds, c'', hreturns, hrest, hrounds⟩ := ih _ hless c' rfl
      rw [hsame] at hreturns hrest hrounds
      exact ⟨rounds + 1, c'', .later hturn hreturns, hrest, by omega⟩
    | inr result =>
      obtain ⟨out, c'⟩ := result
      rw [hturn] at hprogress
      cases hprogress with
      | found hless hfirst =>
        rw [hfirst]
        exact ⟨1, c', .now hturn, rfl, by simp; omega⟩
      | ended hle hnone hnone' =>
        rw [hnone]
        exact ⟨1, c', .now hturn, hnone', by simp; omega⟩

theorem exists_calls (r : Rule) (start after : Instant) (c : Cursor) (calls : Nat) :
    ∃ rounds c', Calls r start after c rounds
        ((List.range calls).map fun i => (r.remaining start after c)[i]?) c' ∧
      rounds ≤ r.left start c + calls := by
  suffices h : ∃ rounds c', Calls r start after c rounds
      ((List.range calls).map fun i => (r.remaining start after c)[i]?) c' ∧
      rounds + r.left start c' ≤ r.left start c + calls by
    obtain ⟨rounds, c', hcalls, hrounds⟩ := h
    exact ⟨rounds, c', hcalls, by omega⟩
  induction calls generalizing c with
  | zero => exact ⟨0, c, .nil c, by omega⟩
  | succ calls ih =>
    obtain ⟨rounds, c', hreturns, hrest, hrounds⟩ := exists_returns r start after c
    obtain ⟨rounds', c'', hcalls, hrounds'⟩ := ih c'
    refine ⟨rounds + rounds', c'', ?_, ?_⟩
    · rw [List.range_succ_eq_map, List.map_cons, List.map_map]
      rw [hrest] at hcalls
      rw [List.head?_eq_getElem?] at hreturns
      simp only [List.getElem?_tail] at hcalls
      exact .cons hreturns hcalls
    · split_ifs at hrounds <;> omega

/-! ### The range of the counters -/

theorem skipped_le (r : Rule) (start after : Instant) : r.skipped start after ≤ periodLimit := by
  unfold skipped
  split_ifs with hnone
  · exact Nat.zero_le _
  have hlater : start ≤ after := Instant.le_of_lt (Instant.not_le.mp fun hle => hnone (Or.inr hle))
  have hunits := unitsBetween_le (r := r) hlater
  have hquotient : r.unitsBetween start after / r.interval ≤ r.unitsBetween start after :=
    Nat.div_le_self _ _
  have hbound : r.frequency.unitOf after - r.frequency.unitOf start + 1 ≤ (periodLimit : Int) := by
    have hfirst := start.first_le
    have hend := after.lt_end
    simp only [Calendar.firstDay, Calendar.lastDay] at hfirst hend
    cases hf : r.frequency with
    | minutely =>
      show after.second / 60 - start.second / 60 + 1 ≤ 600000000000
      omega
    | hourly =>
      show after.second / 3600 - start.second / 3600 + 1 ≤ 600000000000
      omega
    | daily =>
      show after.second / 86400 - start.second / 86400 + 1 ≤ 600000000000
      omega
    | weekly =>
      show (after.second / 86400 + 3) / 7 - (start.second / 86400 + 3) / 7 + 1 ≤ 600000000000
      omega
    | monthly =>
      have hyear := Calendar.yearOf_bounds after.day_bounds.1 after.day_bounds.2
      have hyear' := Calendar.yearOf_bounds start.day_bounds.1 start.day_bounds.2
      have hmonth := after.month_bounds
      show after.year * 12 + (after.month - 1 : Nat) - (start.year * 12 + (start.month - 1 : Nat)) + 1 ≤
        600000000000
      unfold Instant.year
      omega
  omega

/-- What the counters of a cursor can come to, of which each has a word. -/
structure Cursor.InRange (r : Rule) (c : Cursor) : Prop where
  period_le : c.period ≤ periodLimit + c.done.toNat
  empty_le : c.empty ≤ maxEmptyPeriods + c.done.toNat
  counted_le : ∀ n, r.count = some n → c.counted ≤ n

theorem inRange_first (r : Rule) (start after : Instant) : (Cursor.first r start after).InRange r where
  period_le := skipped_le r start after
  empty_le := Nat.zero_le _
  counted_le _ _ := Nat.zero_le _

theorem Cursor.InRange.finish (h : c.InRange r) : c.finish.InRange r where
  period_le := h.period_le.trans (Nat.add_le_add_left (Bool.toNat_le _) _)
  empty_le := h.empty_le.trans (Nat.add_le_add_left (Bool.toNat_le _) _)
  counted_le := h.counted_le

theorem Cursor.InRange.fetch (h : c.InRange r) (hdone : c.done = false) :
    (r.fetch start c).InRange r := by
  obtain ⟨hperiod, hempty, hcounted⟩ := h
  rw [hdone] at hperiod hempty
  rw [Rule.fetch]
  split
  · exact ⟨by simpa using hperiod, hempty.trans (Nat.le_succ _), hcounted⟩
  · rename_i hcandidates
    have hlt := lt_periodLimit hcandidates
    refine ⟨?_, ?_, hcounted⟩
    · dsimp only
      omega
    · dsimp only
      by_cases hstop : maxEmptyPeriods < c.empty + 1
      · rw [decide_eq_true hstop]
        exact Nat.succ_le_succ hempty
      · exact (Nat.not_lt.mp hstop).trans (Nat.le_add_right _ _)
  · rename_i hcandidates
    have hlt := lt_periodLimit hcandidates
    exact ⟨by dsimp only; omega, Nat.zero_le _, hcounted⟩

theorem Cursor.InRange.turn (h : c.InRange r) (start after : Instant) :
    Sum.elim (InRange r) (fun result => result.2.InRange r) (r.turn start after c) := by
  rw [Rule.turn]
  split
  · rename_i t rest _
    have htally (hover : ¬ (!r.notPast t || r.count.any (· ≤ c.counted)) = true) :
        (r.tally c rest).InRange r := by
      refine ⟨h.period_le, h.empty_le, fun n hcount => ?_⟩
      rw [Bool.not_eq_true, Bool.or_eq_false_iff, hcount] at hover
      have hlt : c.counted < n := by simpa using hover.2
      rw [tally, hcount]
      exact hlt
    rw [pop]
    split_ifs with hearly hover hold
    · exact ⟨h.period_le, h.empty_le, h.counted_le⟩
    · exact h.finish
    · exact htally hover
    · exact htally hover
  · cases hdone : c.done with
    | true => exact h
    | false => exact h.fetch hdone

theorem Returns.inRange {rounds : Nat} {out : Option Instant} {c' : Cursor}
    (h : Returns r start after c rounds out c') (hrange : c.InRange r) : c'.InRange r := by
  induction h with
  | @now c _ _ h =>
    have hnext := hrange.turn start after
    rw [h] at hnext
    exact hnext
  | @later c _ _ _ _ h _ ih =>
    have hnext := hrange.turn start after
    rw [h] at hnext
    exact ih hnext

theorem Calls.inRange {rounds : Nat} {outs : List (Option Instant)} {c' : Cursor}
    (h : Calls r start after c rounds outs c') (hrange : c.InRange r) : c'.InRange r := by
  induction h with
  | nil => exact hrange
  | cons h _ ih => exact ih (h.inRange hrange)

end RunScheduler.Rule
