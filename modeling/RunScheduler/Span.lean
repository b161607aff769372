import RunScheduler.Instant

/-!
# Spans of time

A span is a length of time, forward or backward, and shifts instants. Only a shift that ends in the
leap second it begins in counts that second. Main fact: a shift by whole seconds is
`Instant.addSeconds?`.
-/

namespace RunScheduler

/-- A length of time, backward if it is negative. Its milliseconds have 63 bits besides the sign. -/
structure Span where
  nanos : Int
  natAbs_le : nanos.natAbs ≤ 9223372036854775807 * 1000000
deriving DecidableEq, Repr

namespace Span

/-- The most whole seconds that a span holds. -/
def maxSeconds : Nat := 9223372036854775

def ofSeconds (seconds : Int) (h : seconds.natAbs ≤ maxSeconds := by decide) : Span where
  nanos := seconds * 1000000000
  natAbs_le := by
    unfold maxSeconds at h
    omega

def zero : Span := ofSeconds 0

def quarterMinute : Span := ofSeconds 15

def hour : Span := ofSeconds 3600

def day : Span := ofSeconds 86400

def hundredDays : Span := ofSeconds 8640000

/-- So many seconds, if a span holds them. -/
def ofSeconds? (seconds : Int) : Option Span :=
  if h : seconds.natAbs ≤ maxSeconds then some (ofSeconds seconds h) else none

end Span

namespace Instant

/-- The instant so many nanoseconds later. -/
def addNanos? (t : Instant) (nanos : Int) : Option Instant :=
  let sum := t.nano + nanos
  if t.isLeap = true ∧ 1000000000 ≤ sum ∧ sum < 2000000000 then of? t.second sum.toNat
  else
    let sum := if t.isLeap = true ∧ 2000000000 ≤ sum then sum - 1000000000 else sum
    of? (t.second + sum / 1000000000) (sum % 1000000000).toNat

/-- The instant a span later. -/
def add? (t : Instant) (span : Span) : Option Instant :=
  t.addNanos? span.nanos

/-- The instant a span earlier. -/
def sub? (t : Instant) (span : Span) : Option Instant :=
  t.addNanos? (-span.nanos)

theorem isLeap_iff {t : Instant} : t.isLeap = true ↔ 1000000000 ≤ t.nano :=
  decide_eq_true_iff

theorem addNanos?_seconds (t : Instant) (n : Int) :
    t.addNanos? (n * 1000000000) = t.addSeconds? n := by
  have hnano := t.nano_lt
  unfold addNanos? addSeconds?
  dsimp only
  simp only [isLeap_iff]
  by_cases hplain : t.nano < 1000000000
  · rw [if_pos hplain, if_neg (by omega), if_neg (by omega)]
    exact congr (congrArg of? (by omega)) (by omega)
  rw [if_neg hplain]
  rcases Int.lt_trichotomy n 0 with hback | rfl | hforward
  · rw [if_neg (by omega), if_neg (by omega), if_neg (by omega), if_neg (by omega)]
    exact congr (congrArg of? (by omega)) (by omega)
  · rw [if_pos (by omega), if_pos rfl, Int.zero_mul, Int.add_zero, Int.toNat_natCast, of?_self]
  · rw [if_neg (by omega), if_pos (by omega), if_neg (by omega), if_pos hforward]
    exact congr (congrArg of? (by omega)) (by omega)

end Instant

end RunScheduler
