import RunScheduler.Proofs.Schedule.Evaluation

/-!
# Wider bounds take no times away

What is taken within some bounds is where the times begin that are taken within wider ones
(`evaluate_isPrefix_of_within`). Two runs of the loop are compared for this: as long as the
narrower one goes on, so does the wider one, and it has taken the same times
(`takeTimes_isPrefix_of_within`).

For the bounds that a deployment replaces it follows that a larger number takes no times away
(`evaluate_isPrefix_of_override`), except where the larger number is more seconds than a span of
time holds: such a number counts for nothing, and the bound it was to replace comes back
(`not_evaluate_isPrefix_of_larger`).
-/

namespace RunScheduler

/-- A span that another goes on from. Less than a second is left out unless they are the same: it
may end in a leap second at the end of the calendar, which is later than any horizon farther
ahead. -/
def Span.ExtendsTo (d e : Span) : Prop :=
  d = e ∨ d.nanos = 0 ∧ 0 ≤ e.nanos ∨ 1000000000 ≤ d.nanos ∧ d.nanos ≤ e.nanos

/-- Bounds that ask for no more than others do. -/
structure Bounds.Within (b wide : Bounds) : Prop where
  minRuns_le : b.minRuns ≤ wide.minRuns
  maxRuns_le : b.maxRuns ≤ wide.maxRuns
  minAhead : b.minAhead.ExtendsTo wide.minAhead
  maxAhead : b.maxAhead.ExtendsTo wide.maxAhead

theorem Bounds.Within.refl (b : Bounds) : b.Within b :=
  ⟨Nat.le_refl _, Nat.le_refl _, Or.inl rfl, Or.inl rfl⟩

namespace Schedule

variable {s : Schedule} {now t : Instant} {b wide : Bounds} {d e : Span}

/-! ### Horizons -/

theorem horizon_of_zero (h : d.nanos = 0) : horizon now d = now := by
  have hshift : now.add? d = some now := by
    rw [Instant.add?, h, ← Int.zero_mul 1000000000, Instant.addNanos?_seconds,
      Instant.addSeconds?_zero]
  rw [horizon, hshift, Option.getD_some]

theorem addNanos?_of_le {n : Int} (h : 1000000000 ≤ n) :
    now.addNanos? n =
      let sum := ((now.nano % 1000000000 : Nat) : Int) + n
      Instant.of? (now.second + sum / 1000000000) (sum % 1000000000).toNat := by
  have hnano := now.nano_lt
  unfold Instant.addNanos?
  dsimp only
  simp only [Instant.isLeap_iff]
  rw [if_neg (by omega)]
  split_ifs
  · exact congr (congrArg Instant.of? (by omega)) (by omega)
  · exact congr (congrArg Instant.of? (by omega)) (by omega)

theorem horizon_mono (hd : 1000000000 ≤ d.nanos) (h : d.nanos ≤ e.nanos) :
    horizon now d ≤ horizon now e := by
  have hend := now.lt_end
  have hfirst := now.first_le
  have hnano : now.nano % 1000000000 < 1000000000 := Nat.mod_lt _ (by decide)
  rw [horizon, horizon, Instant.add?, Instant.add?, addNanos?_of_le hd,
    addNanos?_of_le (Int.le_trans hd h)]
  generalize now.nano % 1000000000 = nano at hnano ⊢
  unfold Instant.of?
  dsimp only
  split_ifs with hnear hfar hfar
  · rw [Option.getD_some, Option.getD_some, Instant.le_def]
    dsimp only
    omega
  · rw [Option.getD_some, Option.getD_none, Instant.le_def]
    simp only [Instant.last]
    omega
  · omega
  · exact Instant.le_refl _

theorem le_horizon_of_extendsTo (h : d.ExtendsTo e) (hlt : now < t) (hle : t ≤ horizon now d) :
    t ≤ horizon now e := by
  rcases h with rfl | ⟨hzero, -⟩ | ⟨hsecond, hde⟩
  · exact hle
  · rw [horizon_of_zero hzero] at hle
    exact absurd hlt (Instant.not_lt.mpr hle)
  · exact Instant.le_trans hle (horizon_mono hsecond hde)

theorem horizon_le_of_extendsTo (h : d.ExtendsTo e) (hnow : now ≤ t) (hle : horizon now e ≤ t) :
    horizon now d ≤ t := by
  rcases h with rfl | ⟨hzero, -⟩ | ⟨hsecond, hde⟩
  · exact hle
  · rw [horizon_of_zero hzero]
    exact hnow
  · exact Instant.le_trans (horizon_mono hsecond hde) hle

/-! ### Bounds within others -/

theorem le_ceiling_of_within (h : b.Within wide) {stop : Option Instant} (hlt : now < t)
    (hle : t ≤ ceiling stop now b) : t ≤ ceiling stop now wide := by
  rw [le_ceiling_iff] at hle ⊢
  exact ⟨hle.1, le_horizon_of_extendsTo h.maxAhead hlt hle.2⟩

theorem Enough.of_within {times : List Instant} (h : b.Within wide)
    (hlater : ∀ t ∈ times, now < t) (henough : Enough wide now times) : Enough b now times := by
  refine henough.imp (Nat.le_trans h.maxRuns_le) fun ⟨hcount, hahead⟩ => ?_
  refine ⟨Nat.le_trans h.minRuns_le hcount,
    horizon_le_of_extendsTo h.minAhead ?_ hahead⟩
  cases hlast : times.getLast? with
  | none => exact Instant.le_refl now
  | some t => exact Instant.le_of_lt (hlater t (List.mem_of_getLast? hlast))

/-! ### Two runs -/

theorem reverse_isPrefix_takeTimes {ceiling : Instant} {count : Nat} {taken : List Instant}
    {times : LazyList Instant} :
    taken.reverse <+: takeTimes b now ceiling count taken times := by
  induction times generalizing count taken with
  | nil => exact List.prefix_refl _
  | cons t rest ih =>
    have hmore : taken.reverse <+: (t :: taken).reverse := by
      rw [List.reverse_cons]
      exact List.prefix_append _ _
    rw [takeTimes]
    split_ifs
    · exact List.prefix_refl _
    · exact ih ()
    · exact hmore
    · exact hmore.trans (ih ())

theorem takeTimes_isPrefix_of_within (h : b.Within wide) {stop : Option Instant}
    {taken : List Instant} {times : LazyList Instant} (htaken : ∀ t ∈ taken, now < t)
    (htimes : ∀ t ∈ times.toList, now < t) :
    takeTimes b now (ceiling stop now b) taken.length taken times <+:
      takeTimes wide now (ceiling stop now wide) taken.length taken times := by
  induction times generalizing taken with
  | nil => exact List.prefix_refl _
  | cons t rest ih =>
    rw [LazyList.toList_cons, List.forall_mem_cons] at htimes
    have hmore : ∀ u ∈ t :: taken, now < u := List.forall_mem_cons.mpr ⟨htimes.1, htaken⟩
    by_cases hceiling : ceiling stop now b < t
    · rw [takeTimes, if_pos hceiling]
      exact reverse_isPrefix_takeTimes
    have hwide : ¬ ceiling stop now wide < t :=
      Instant.not_lt.mpr (le_ceiling_of_within h htimes.1 (Instant.not_lt.mp hceiling))
    rw [takeTimes, takeTimes, if_neg hceiling, if_neg hwide]
    split_ifs with hseen henough hmet hmet
    · exact ih () htaken htimes.2
    · exact List.prefix_refl _
    · exact reverse_isPrefix_takeTimes
    · have hwould := Enough.of_within h (fun u hu => hmore u (List.mem_reverse.mp hu))
        (enough_reverse_cons_iff.mpr hmet)
      exact absurd (enough_reverse_cons_iff.mp hwould) henough
    · exact ih () hmore htimes.2

/-- Within narrower bounds an evaluation takes the times that it begins with within wider ones. -/
theorem evaluate_isPrefix_of_within (s : Schedule) (now : Instant) (h : b.Within wide) :
    s.evaluate now b <+: s.evaluate now wide := by
  rw [evaluate, evaluate]
  have hnone : ∀ t ∈ ([] : List Instant), now < t := List.forall_mem_nil _
  split_ifs with henough hmet hmet
  · exact List.prefix_refl _
  · exact List.nil_prefix
  · have hwould := Enough.of_within h hnone (enough_nil_iff.mpr hmet)
    exact absurd (enough_nil_iff.mp hwould) henough
  · exact takeTimes_isPrefix_of_within h hnone fun t ht => lt_of_mem_occurrences ht

end Schedule

/-! ### Replaced bounds -/

namespace BoundsOverride

variable {n m : UInt64} {fallback : Span}

/-- Of two numbers of seconds the larger one extends the smaller one unless a span holds the smaller
one alone and that is more than the fallback. -/
theorem secondsOr_extendsTo (hle : n ≤ m) (h : m.toNat ≤ Span.maxSeconds ∨
      Span.maxSeconds < n.toNat ∨ n.toNat * 1000000000 ≤ fallback.nanos) :
    (secondsOr (some n) fallback).ExtendsTo (secondsOr (some m) fallback) := by
  have hcount : n.toNat ≤ m.toNat := UInt64.le_iff_toNat_le.mp hle
  unfold secondsOr Span.ofSeconds? Span.ExtendsTo
  simp only [Option.bind_some, Int.natAbs_natCast]
  split_ifs with hn hm hm
  · rw [Option.getD_some, Option.getD_some, Span.ofSeconds, Span.ofSeconds]
    dsimp only
    omega
  · rw [Option.getD_some, Option.getD_none, Span.ofSeconds]
    dsimp only
    omega
  · omega
  · exact Or.inl rfl

end BoundsOverride

namespace Schedule

open BoundsOverride

/-- **A larger number takes no times away.** Whatever a deployment replaces besides, the times for
the smaller of two numbers are those that the times for the larger one begin with. For numbers of
seconds this holds if a span holds the larger one, or not even the smaller one, or if the smaller
one is not more than the bound to be replaced. -/
theorem evaluate_isPrefix_of_override (s : Schedule) (now : Instant) (base : Bounds)
    (o : BoundsOverride) {n m : UInt64} (hle : n ≤ m) :
    let times (o : BoundsOverride) := s.evaluate now (o.apply base)
    ((m.toNat ≤ Span.maxSeconds ∨ Span.maxSeconds < n.toNat ∨
        n.toNat * 1000000000 ≤ base.maxAhead.nanos) →
      times { o with maxAheadSeconds := some n } <+: times { o with maxAheadSeconds := some m }) ∧
    ((m.toNat ≤ Span.maxSeconds ∨ Span.maxSeconds < n.toNat ∨
        n.toNat * 1000000000 ≤ base.minAhead.nanos) →
      times { o with minAheadSeconds := some n } <+: times { o with minAheadSeconds := some m }) ∧
    times { o with maxRuns := some n } <+: times { o with maxRuns := some m } ∧
    times { o with minRuns := some n } <+: times { o with minRuns := some m } := by
  have hsame (o : BoundsOverride) : (o.apply base).Within (o.apply base) := .refl _
  have hcount : n.toNat ≤ m.toNat := UInt64.le_iff_toNat_le.mp hle
  refine ⟨fun hheld => ?_, fun hheld => ?_, ?_, ?_⟩
  · exact evaluate_isPrefix_of_within s now
      { hsame { o with maxAheadSeconds := some n } with
        maxAhead := secondsOr_extendsTo hle hheld }
  · exact evaluate_isPrefix_of_within s now
      { hsame { o with minAheadSeconds := some n } with
        minAhead := secondsOr_extendsTo hle hheld }
  · exact evaluate_isPrefix_of_within s now
      { hsame { o with maxRuns := some n } with maxRuns_le := hcount }
  · exact evaluate_isPrefix_of_within s now
      { hsame { o with minRuns := some n } with minRuns_le := hcount }

/-- Every sixty days from the start of 1970 on. -/
def everySixtyDays : Schedule :=
  ⟨{ recurrence := .interval 5184000 none }, .interval ⟨.epoch, 5184000, by decide⟩, rfl⟩

/-- Up to 60 days ahead there is one time, and up to 180 days there are three. -/
theorem evaluate_isPrefix_of_everySixtyDays :
    let times (o : BoundsOverride) := everySixtyDays.evaluate .epoch (o.apply {})
    (5184000 : UInt64) ≤ 15552000 ∧
      (times { maxAheadSeconds := some 5184000 }).length = 1 ∧
      (times { maxAheadSeconds := some 15552000 }).length = 3 ∧
      times { maxAheadSeconds := some 5184000 } <+: times { maxAheadSeconds := some 15552000 } := by
  have hheld : (15552000 : UInt64).toNat ≤ Span.maxSeconds := by decide
  have hle : (5184000 : UInt64) ≤ 15552000 := by decide
  refine ⟨hle, by decide +kernel, by decide +kernel, ?_⟩
  exact (evaluate_isPrefix_of_override everySixtyDays .epoch {} {} hle).1 (Or.inl hheld)

/-- One second more than a span of time holds brings back the bound that was to be replaced, and
with it fewer times: of the three times that the most seconds allow one is left, and of the four
that they ask for there are three. -/
theorem not_evaluate_isPrefix_of_larger :
    let times (o : BoundsOverride) := everySixtyDays.evaluate .epoch (o.apply {})
    let most : UInt64 := 9223372036854775
    let far : BoundsOverride := { maxRuns := some 4, maxAheadSeconds := some most }
    most ≤ most + 1 ∧
      ¬ times { maxAheadSeconds := some most } <+: times { maxAheadSeconds := some (most + 1) } ∧
      ¬ times { far with minAheadSeconds := some most } <+:
        times { far with minAheadSeconds := some (most + 1) } := by
  decide +kernel

end Schedule

end RunScheduler
