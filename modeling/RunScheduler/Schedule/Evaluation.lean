import RunScheduler.Schedule
import RunScheduler.Span

/-!
# Evaluation of a schedule

From a schedule and bounds come the times at which runs are wanted after an instant. Times are
taken until both floors are met (a number of runs, and a time at or after a horizon), and never
beyond a ceiling (a number of runs, a horizon, the stop of the schedule). A ceiling wins over a
floor.
-/

namespace RunScheduler

/-- How many runs to ask for, and how far ahead. -/
structure Bounds where
  minRuns : Nat := 3
  maxRuns : Nat := 100
  minAhead : Span := .hour
  maxAhead : Span := .hundredDays
deriving DecidableEq, Repr

/-- The bounds that a deployment replaces. -/
structure BoundsOverride where
  minRuns : Option UInt64 := none
  maxRuns : Option UInt64 := none
  minAheadSeconds : Option UInt64 := none
  maxAheadSeconds : Option UInt64 := none
deriving DecidableEq, Repr

namespace BoundsOverride

/-- The seconds given, if a span holds them, or else the fallback. -/
def secondsOr (seconds : Option UInt64) (fallback : Span) : Span :=
  (seconds.bind fun s => Span.ofSeconds? s.toNat).getD fallback

def apply (o : BoundsOverride) (base : Bounds) : Bounds where
  minRuns := (o.minRuns.map (·.toNat)).getD base.minRuns
  maxRuns := (o.maxRuns.map (·.toNat)).getD base.maxRuns
  minAhead := secondsOr o.minAheadSeconds base.minAhead
  maxAhead := secondsOr o.maxAheadSeconds base.maxAhead

end BoundsOverride

namespace Schedule

/-- The instant so far ahead, or the last of the calendar. -/
def horizon (now : Instant) (ahead : Span) : Instant :=
  (now.add? ahead).getD Instant.last

/-- The latest time that may be taken. -/
def ceiling (stop : Option Instant) (now : Instant) (b : Bounds) : Instant :=
  match stop with
  | none => horizon now b.maxAhead
  | some stop => min stop (horizon now b.maxAhead)

/-- Whether both floors are met by so many times, the last of them `last` (`now` if there is
none). -/
def floorsMet (b : Bounds) (now : Instant) (count : Nat) (last : Instant) : Bool :=
  b.minRuns ≤ count && decide (horizon now b.minAhead ≤ last)

/-- Takes times up to the ceiling until there are enough. `taken` holds the times taken before,
the last in front, and `count` is their number. A time that is not later than the last is passed
over. -/
def takeTimes (b : Bounds) (now ceiling : Instant) (count : Nat) (taken : List Instant) :
    LazyList Instant → List Instant
  | .nil => taken.reverse
  | .cons t rest =>
    if ceiling < t then taken.reverse
    else if taken.head?.any (t ≤ ·) then takeTimes b now ceiling count taken (rest ())
    else if b.maxRuns ≤ count + 1 || floorsMet b now (count + 1) t then (t :: taken).reverse
    else takeTimes b now ceiling (count + 1) (t :: taken) (rest ())

/-- The times after `now` at which runs are wanted. -/
def evaluate (s : Schedule) (now : Instant) (b : Bounds) : List Instant :=
  if b.maxRuns = 0 || floorsMet b now 0 now then []
  else takeTimes b now (ceiling s.stop now b) 0 [] (s.occurrences now)

end Schedule

end RunScheduler
