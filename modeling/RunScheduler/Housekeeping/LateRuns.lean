import RunScheduler.Housekeeping

/-!
# Late runs

A run that is still scheduled some time after it should have started is late.
-/

namespace RunScheduler

structure LateRuns where
  lifecycle : Lifecycle := {}
  /-- Milliseconds between passes. -/
  interval : Nat := 5000
  /-- How long after its scheduled time a run is late. -/
  after : Span := .quarterMinute
  /-- The most runs queried at once; none counts as one. -/
  batchSize : Nat := 400

namespace LateRuns

def lateMessage : String := "Run is late."

/-- The runs that are late at an instant were scheduled before this one. -/
def cutoff? (s : LateRuns) (now : Instant) : Option Instant :=
  now.sub? s.after

def change (now : Instant) : Housekeeping.Change where
  expected := .ofKind .scheduled
  next := { kind := .late, time := now, message := some lateMessage }

def pass (s : LateRuns) (now : Instant) : Script (Except HousekeepingError PassStats) :=
  match s.cutoff? now with
  | none => return .error .cutoffOutOfRange
  | some cutoff =>
    let filter : RunFilter :=
      { kinds := [.scheduled], scheduledBefore := some cutoff, limit := s.batchSize }
    Housekeeping.sweep s.lifecycle filter (change now)

def service (s : LateRuns) : Service Unit :=
  .independent "late_runs" s.interval s.pass

end LateRuns

end RunScheduler
