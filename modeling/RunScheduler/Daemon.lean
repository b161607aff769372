import RunScheduler.Housekeeping.CancellationCleanup
import RunScheduler.Housekeeping.LateRuns
import RunScheduler.Housekeeping.PauseExpirations
import RunScheduler.Scheduler
import RunScheduler.Settings.Resolution

/-!
# The daemon

What resolved settings make of the scheduler and the services, and the loops that run side by
side. A span of time that is too long to be held is refused before anything starts.
-/

namespace RunScheduler.ResolvedSettings

/-- So many seconds are no span. -/
structure SpanOutOfRange where
deriving DecidableEq, Repr

def SpanOutOfRange.message (_ : SpanOutOfRange) : String :=
  "Source duration value is out of range for the target type"

/-- So many seconds, if a span holds them. -/
def span (seconds : UInt64) : Except SpanOutOfRange Span :=
  match Span.ofSeconds? seconds.toNat with
  | none => .error {}
  | some d => .ok d

def retryPolicy (r : ResolvedSettings) : RetryPolicy where
  maxAttempts := r.settings.store.retryAttempts
  baseDelay := r.settings.store.retryBaseDelay

def lifecycle (r : ResolvedSettings) : Lifecycle where
  retry := r.retryPolicy

/-- The bounds of deployments that have none of their own. -/
def bounds (r : ResolvedSettings) : Except SpanOutOfRange Bounds := do
  let s := r.settings.scheduler
  let minAhead ← span s.minAheadSeconds
  let maxAhead ← span s.maxAheadSeconds
  return { minRuns := s.minRuns.toNat, maxRuns := s.maxRuns.toNat, minAhead, maxAhead }

def scheduler (r : ResolvedSettings) : Except SpanOutOfRange Scheduler := do
  let s := r.settings.scheduler
  let bounds ← r.bounds
  return {
    interval := s.loopSeconds.toNat * 1000
    pageSize := s.deploymentBatchSize.toNat
    maxConcurrency := s.maxConcurrency.toNat
    materializer := {
      insertBatchSize := s.insertBatchSize.toNat, bounds, retry := r.retryPolicy } }

def lateRuns (r : ResolvedSettings) : Except SpanOutOfRange LateRuns := do
  let s := r.settings.lateRuns
  let after ← span s.afterSeconds
  return {
    lifecycle := r.lifecycle
    interval := s.loopSeconds.toNat * 1000
    after
    batchSize := s.batchSize.toNat }

def pauseExpirations (r : ResolvedSettings) : PauseExpirations where
  lifecycle := r.lifecycle
  interval := r.settings.pauseExpirations.loopSeconds.toNat * 1000
  batchSize := r.settings.pauseExpirations.batchSize.toNat

def cancellationCleanup (r : ResolvedSettings) : Except SpanOutOfRange CancellationCleanup := do
  let s := r.settings.cancellationCleanup
  let lookback ← span s.lookbackSeconds
  return {
    lifecycle := r.lifecycle
    interval := s.loopSeconds.toNat * 1000
    batchSize := s.batchSize.toNat
    lookback }

/-- What runs: each part that is enabled. -/
structure Parts where
  scheduler : Option Scheduler
  lateRuns : Option LateRuns
  pauseExpirations : Option PauseExpirations
  cancellationCleanup : Option CancellationCleanup

/-- A part, if it is enabled. -/
def ifEnabled {α : Type} (enabled : Bool) (part : Except SpanOutOfRange α) :
    Except SpanOutOfRange (Option α) :=
  if enabled then part.map some else .ok none

def parts (r : ResolvedSettings) : Except SpanOutOfRange Parts := do
  let s := r.settings
  let scheduler ← ifEnabled s.scheduler.enabled r.scheduler
  let lateRuns ← ifEnabled s.lateRuns.enabled r.lateRuns
  let pauseExpirations ← ifEnabled s.pauseExpirations.enabled (.ok r.pauseExpirations)
  let cancellationCleanup ← ifEnabled s.cancellationCleanup.enabled r.cancellationCleanup
  return { scheduler, lateRuns, pauseExpirations, cancellationCleanup }

/-- The loops of all parts. -/
def Parts.loops (p : Parts) : List (Script Unit) :=
  (p.scheduler.map fun s => do let _ ← s.run {}; return).toList ++
    (p.lateRuns.map fun s => s.service.run ()).toList ++
    (p.pauseExpirations.map fun s => s.service.run ()).toList ++
    (p.cancellationCleanup.map fun s => s.service.run ()).toList

end RunScheduler.ResolvedSettings
