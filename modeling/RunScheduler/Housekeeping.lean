import RunScheduler.Lifecycle
import RunScheduler.Span

/-!
# Housekeeping

Work that is done again and again on stored runs: a pass goes through the runs that need
something, and the loop of a service makes a pass, rests, and starts again until told to stop. A
run that somebody else changed meanwhile is passed over, and so is one whose change fails.
-/

namespace RunScheduler

/-- What a pass did. -/
structure PassStats where
  examined : Nat := 0
  transitioned : Nat := 0
  /-- Changed by somebody else meanwhile. -/
  skipped : Nat := 0
  failed : Nat := 0
deriving DecidableEq, Repr

namespace PassStats

def isIdle (s : PassStats) : Bool :=
  s.examined == 0

def add (a b : PassStats) : PassStats where
  examined := a.examined + b.examined
  transitioned := a.transitioned + b.transitioned
  skipped := a.skipped + b.skipped
  failed := a.failed + b.failed

/-- Counts the outcome of one change. -/
def count (s : PassStats) : Except TransitionError Run → PassStats
  | .ok _ => { s with transitioned := s.transitioned + 1 }
  | .error e =>
    if e.isIllegal then { s with skipped := s.skipped + 1 } else { s with failed := s.failed + 1 }

end PassStats

inductive HousekeepingError
  | state (source : StoreError)
  /-- The instant from which on, or up to which, runs matter is not in the calendar. Unlike an
  error of the store it ends the loop of the service. -/
  | cutoffOutOfRange
deriving DecidableEq

namespace HousekeepingError

def message : HousekeepingError → String
  | .state source => "state store error: " ++ source.message
  | .cutoffOutOfRange => "the cutoff is out of range"

end HousekeepingError

/-! ## Sweeps -/

namespace Housekeeping

/-- What is to become of a run, and what is expected of it until then. -/
structure Change where
  expected : Expected
  next : State

/-- Makes a change of every run of a page and counts the outcomes. -/
def changeAll (l : Lifecycle) (change : Change) (stats : PassStats) :
    List Run → Script PassStats
  | [] => return stats
  | run :: runs => do
    let outcome ← l.transition run.id change.expected change.next
    changeAll l change (stats.count outcome) runs

def sweepStep (l : Lifecycle) (filter : RunFilter) (change : Change) (stats : PassStats) :
    Script (PassStats ⊕ Except HousekeepingError PassStats) := do
  let limit := max filter.limit 1
  match ← Script.call (.query (filter.page limit stats.failed)) with
  | .error e => return .inr (.error (.state e))
  | .ok runs =>
    let stats ← changeAll l change { stats with examined := stats.examined + runs.length } runs
    if runs.length < limit then return .inr (.ok stats) else return .inl stats

/-- Makes a change of every run that a filter selects, page by page. Runs that were changed are
not selected again, nor are those that somebody else changed, so that only the runs whose change
failed are to be passed over on the next page. -/
def sweep (l : Lifecycle) (filter : RunFilter) (change : Change) :
    Script (Except HousekeepingError PassStats) :=
  Script.repeatFrom {} (sweepStep l filter change)

end Housekeeping

/-! ## Services -/

/-- Something done again and again. A pass starts from what the pass before left. -/
structure Service (σ : Type) where
  name : String
  /-- The rest between two passes in milliseconds. -/
  interval : Nat
  pass : Instant → σ → Script (Except HousekeepingError PassStats × σ)

namespace Service

variable {σ : Type}

def runStep (service : Service σ) (s : σ) : Script (σ ⊕ σ) := do
  if ← Script.stopRequested then return .inr s
  let now ← Script.call .readClock
  let (outcome, s) ← service.pass now s
  match outcome with
  | .error .cutoffOutOfRange => return .inr s
  | _ =>
    match ← Script.call (.rest service.interval) with
    | .abandoned => return .inr s
    | _ => return .inl s

/-- Makes passes until told to stop. -/
def run (service : Service σ) (s : σ) : Script σ :=
  Script.repeatFrom s service.runStep

/-- A service whose passes do not depend on each other. -/
def independent (name : String) (interval : Nat)
    (pass : Instant → Script (Except HousekeepingError PassStats)) : Service Unit where
  name := name
  interval := interval
  pass now _ := do return (← pass now, ())

end Service

end RunScheduler
