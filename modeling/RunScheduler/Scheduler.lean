import RunScheduler.Materialization

/-!
# The scheduler

A pass goes through all schedulable deployments page by page and materializes those of a page
side by side. A deployment that fails is counted and passed over; one that fails in several
passes in a row is made known. The loop makes a pass, rests, and starts again until it is told to
stop.
-/

namespace RunScheduler

structure Scheduler where
  /-- The rest between two passes in milliseconds. -/
  interval : Nat := 60000
  /-- The most deployments in a page; none counts as one. -/
  pageSize : Nat := 100
  /-- The most deployments of a page that are materialized at once; none counts as one. -/
  maxConcurrency : Nat := 10
  /-- From so many failed passes in a row on, each is made known. -/
  failureThreshold : UInt32 := 2
  materializer : Materializer := {}

/-- The number of passes in a row in which each deployment failed, of which 32 bits are kept. One
that did not fail has no entry. -/
abbrev FailureCounts := Table String UInt32

namespace FailureCounts

def count (f : FailureCounts) (deployment : String) : UInt32 :=
  (f.get? deployment).getD 0

end FailureCounts

/-- The totals of a pass. -/
structure PassReport where
  pages : Nat := 0
  deployments : Nat := 0
  inserted : Nat := 0
  /-- The deployments that failed. -/
  failed : List String := []
  /-- Whether a stop request ended the pass. -/
  interrupted : Bool := false
deriving DecidableEq, Repr

namespace Scheduler

/-- Notes what became of a deployment, and makes known that it fails again and again. -/
def record (s : Scheduler) (report : PassReport) (failures : FailureCounts) (d : Deployment) :
    Except SchedulingError Materialization → Script (PassReport × FailureCounts)
  | .ok done => return ({ report with inserted := report.inserted + done.inserted },
      failures.erase d.id)
  | .error e => do
    let count := failures.count d.id + 1
    if s.failureThreshold ≤ count then
      Script.call (.emit (.schedulingFailed d.id count e.message))
    return ({ report with failed := report.failed ++ [d.id] }, failures.insert d.id count)

def recordAll (s : Scheduler) (report : PassReport) (failures : FailureCounts) :
    List (Deployment × Except SchedulingError Materialization) →
      Script (PassReport × FailureCounts)
  | [] => return (report, failures)
  | (d, outcome) :: rest => do
    let (report, failures) ← s.record report failures d outcome
    s.recordAll report failures rest

/-- Where a pass is: the page to come, and what there is so far. -/
structure PassState where
  token : Option String := none
  report : PassReport := {}
  failures : FailureCounts := {}

/-- Deals with a page of deployments. -/
def drain (s : Scheduler) (now : Instant) (p : PassState) (page : Store.Page) :
    Script (PassReport × FailureCounts) := do
  let report := { p.report with
    pages := p.report.pages + 1, deployments := p.report.deployments + page.deployments.length }
  Script.call (.setPhase .draining)
  let outcomes ← Script.all (max s.maxConcurrency 1)
    (page.deployments.map fun d => s.materializer.materialize d now)
  s.recordAll report p.failures (page.deployments.zip outcomes)

/-- The listing of the page that comes next. -/
def listPage (s : Scheduler) (token : Option String) : Script (Except StoreError Store.Page) :=
  Script.retry s.materializer.retry (Script.call (.listSchedulable token (max s.pageSize 1)))

/-- Where the page after this one begins; only a full page has one. -/
def nextToken (s : Scheduler) (page : Store.Page) : Option String :=
  if page.deployments.length = max s.pageSize 1 then page.next else none

abbrev PassResult := Except StoreError PassReport × FailureCounts

def passStep (s : Scheduler) (now : Instant) (heedsStop : Bool) (p : PassState) :
    Script (PassState ⊕ PassResult) := do
  let stop ← if heedsStop then Script.stopRequested else pure false
  if stop then return .inr (.ok { p.report with interrupted := true }, p.failures)
  Script.call (.setPhase .paging)
  match ← s.listPage p.token with
  | .error e => return .inr (.error e, p.failures)
  | .ok page =>
    let (report, failures) ← s.drain now p page
    match s.nextToken page with
    | some id => return .inl { token := some id, report, failures }
    | none => return .inr (.ok report, failures)

/-- Goes through all deployments as of an instant. A stop request ends the pass between two
pages, if it is to be heeded; a listing that fails ends it at once. -/
def pass (s : Scheduler) (now : Instant) (heedsStop : Bool) (failures : FailureCounts) :
    Script PassResult :=
  Script.repeatFrom { failures } (s.passStep now heedsStop)

def runStep (s : Scheduler) (failures : FailureCounts) :
    Script (FailureCounts ⊕ FailureCounts) := do
  if ← Script.stopRequested then return .inr failures
  let now ← Script.call .readClock
  let (_, failures) ← s.pass now true failures
  Script.call (.setPhase .sleeping)
  match ← Script.call (.rest s.interval) with
  | .abandoned => return .inr failures
  | _ => return .inl failures

/-- Makes passes until told to stop. -/
def run (s : Scheduler) (failures : FailureCounts) : Script FailureCounts := do
  let failures ← Script.repeatFrom failures s.runStep
  Script.call (.setPhase .idle)
  return failures

end Scheduler

end RunScheduler
