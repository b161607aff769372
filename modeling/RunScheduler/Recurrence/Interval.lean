import RunScheduler.Instant
import RunScheduler.LazyList

/-!
# Intervals

The instants `anchor + k * every` for `k = 0, 1, 2, …`, as long as the calendar has them. The
expansion does not begin at `k = 0`: the first index is found from the distance between the
anchor and the instant after which occurrences are wanted.
-/

namespace RunScheduler

/-- A fixed number of seconds from an anchor on. -/
structure Interval where
  anchor : Instant
  /-- Seconds from one occurrence to the next. -/
  every : Nat
  every_pos : 0 < every

namespace Interval

/-- The `k`-th instant, if the calendar has it. -/
def nth? (i : Interval) (k : Nat) : Option Instant :=
  i.anchor.addSeconds? (k * i.every)

/-- An end of the calendar bounds the indices. -/
theorem second_of_nth? {i : Interval} {k : Nat} {t : Instant} (h : i.nth? k = some t) :
    i.anchor.second + k * i.every < (Calendar.lastDay + 1) * 86400 := by
  have h₁ := (Instant.addSeconds?_second h).1
  have h₂ := t.lt_end
  omega

/-- The instants from index `k` on. -/
def fromIndex (i : Interval) (k : Nat) : LazyList Instant :=
  match h : i.nth? k with
  | none => .nil
  | some t => .cons t fun _ => i.fromIndex (k + 1)
termination_by ((Calendar.lastDay + 1) * 86400 - (i.anchor.second + k * i.every)).toNat
decreasing_by
  have h₁ := second_of_nth? h
  have h₂ := i.every_pos
  have h₃ : ((k + 1 : Nat) : Int) * (i.every : Int) = k * i.every + i.every := by
    rw [Int.natCast_add, Int.add_mul]; simp
  omega

/-- The index of the first instant later than `after`, counted in whole milliseconds. -/
def indexAfter (i : Interval) (after : Instant) : Int :=
  if after < i.anchor then 0
  else (after.millisSince i.anchor).tdiv (i.every * 1000) + 1

/-- The index of the first instant not before `start`, counted in whole milliseconds. -/
def indexFrom (i : Interval) (start : Instant) : Int :=
  let distance := start.millisSince i.anchor
  distance / (i.every * 1000) + if distance % (i.every * 1000) = 0 then 0 else 1

/-- The index at which expansion begins. -/
def firstIndex (i : Interval) (after : Instant) (start : Option Instant) : Nat :=
  match start with
  | none => (i.indexAfter after).toNat
  | some start =>
    if i.anchor < start then (max (i.indexAfter after) (i.indexFrom start)).toNat
    else (i.indexAfter after).toNat

/-- The instants from the first index on. -/
def occurrences (i : Interval) (after : Instant) (start : Option Instant) : LazyList Instant :=
  i.fromIndex (i.firstIndex after start)

end Interval

end RunScheduler
