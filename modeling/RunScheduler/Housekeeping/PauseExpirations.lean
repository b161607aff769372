import RunScheduler.Housekeeping

/-!
# Expired pauses

A run that is paused beyond its deadline has failed.
-/

namespace RunScheduler

structure PauseExpirations where
  lifecycle : Lifecycle := {}
  /-- Milliseconds between passes. -/
  interval : Nat := 5000
  /-- The most runs queried at once; none counts as one. -/
  batchSize : Nat := 200

namespace PauseExpirations

def expiredMessage : String := "The run was paused and never resumed."

/-- A run that was paused anew meanwhile has another deadline, and is not to fail. -/
def change (now : Instant) : Housekeeping.Change where
  expected := { kind := some .paused, pauseExpiredBy := some now }
  next := { kind := .failed, time := now, message := some expiredMessage }

def pass (s : PauseExpirations) (now : Instant) :
    Script (Except HousekeepingError PassStats) :=
  let filter : RunFilter :=
    { kinds := [.paused], pauseExpiredBy := some now, limit := s.batchSize }
  Housekeeping.sweep s.lifecycle filter (change now)

def service (s : PauseExpirations) : Service Unit :=
  .independent "pause_expirations" s.interval s.pass

end PauseExpirations

end RunScheduler
