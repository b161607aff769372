import RunScheduler.Housekeeping
import RunScheduler.Simulation.Tasks

/-!
# Trials

A retry policy and the loop of a service, tried on outcomes that are laid down beforehand.
-/

namespace RunScheduler.Simulation

/-! ## A retry policy -/

/-- What has come of tries whose outcomes are laid down, the last of them for all further ones. -/
structure Tries (α : Type) where
  outcomes : List (Except StoreError α)
  calls : Nat := 0
  /-- The delays between tries in milliseconds, altogether. -/
  elapsed : Nat := 0

namespace Tries

variable {α : Type}

/-- The next try; without any outcome laid down it fails. -/
def call : StateM (Tries α) (Except StoreError α) := fun t =>
  match t.outcomes with
  | [] => (.error (.unavailable "no outcome"), { t with calls := t.calls + 1 })
  | [a] => (a, { t with calls := t.calls + 1 })
  | a :: rest => (a, { t with outcomes := rest, calls := t.calls + 1 })

def wait (delay : Duration) : StateM (Tries α) Unit :=
  modify fun t => { t with elapsed := t.elapsed + delay }

end Tries

/-- Tries a policy on outcomes. -/
def tryPolicy {α : Type} (policy : RetryPolicy) (outcomes : List (Except StoreError α)) :
    Except StoreError α × Tries α :=
  (policy.retry Tries.wait Tries.call).run { outcomes }

/-! ## A service -/

/-- What a pass of a service on trial comes to. -/
inductive TrialOutcome
  | idle | busy | failing
  /-- Ends the loop. -/
  | broken
deriving DecidableEq, Repr

/-- The outcomes to come, and when the passes were made, the latest first. -/
structure TrialState where
  outcomes : List TrialOutcome
  passes : List Instant := []

def TrialOutcome.stats : TrialOutcome → Except HousekeepingError PassStats
  | .idle => .ok {}
  | .busy => .ok { examined := 1, transitioned := 1 }
  | .failing => .error (.state (.unavailable "down"))
  | .broken => .error .cutoffOutOfRange

/-- A service whose passes come to outcomes laid down; all further passes find nothing to do. -/
def trialService (name : String) (interval : Nat) : Service TrialState where
  name := name
  interval := interval
  pass now s :=
    return ((s.outcomes.head?.getD .idle).stats,
      { outcomes := s.outcomes.tail, passes := now :: s.passes })

/-- The instants of the passes that services on trial make in some time, and which of them were
still running at its end. -/
def tryServices (w : World) (milliseconds : Nat) (services : List (Service TrialState))
    (outcomes : List (List TrialOutcome)) : World × Stretch TrialState :=
  runFor w milliseconds .raised <|
    services.zipWith (fun service outcomes => service.run { outcomes }) outcomes

end RunScheduler.Simulation
