import RunScheduler.Run

/-!
# Events

What is made known about scheduling and about runs, once it has happened.
-/

namespace RunScheduler

inductive Event
  /-- Runs of a deployment were stored, the first and the last of them for these instants. -/
  | runsScheduled (deployment : String) (count : Nat) (first last : Instant)
  /-- A run reached a terminal state. -/
  | runEnded (run : RunId) (deployment : Option String) (kind : StateKind) (time : Instant)
  /-- The runs of a deployment could not be stored in so many passes in a row. -/
  | schedulingFailed (deployment : String) (failures : UInt32) (error : String)
  /-- A hook failed after a change that stands. -/
  | hookFailed (run : RunId) (hook error : String)
deriving DecidableEq

namespace Event

def toJson : Event → Json
  | .runsScheduled deployment count first last =>
    .object [("event", .string "runs_scheduled"), ("deployment_id", .string deployment),
      ("count", Json.ofNat count), ("first", first.toJson), ("last", last.toJson)]
  | .runEnded run deployment kind time =>
    .object [("event", .string "run_terminal"), ("run_id", run.toJson),
      ("deployment_id", Json.ofOption .string deployment), ("state", kind.toJson),
      ("timestamp", time.toJson)]
  | .schedulingFailed deployment failures error =>
    .object [("event", .string "scheduling_failed"), ("deployment_id", .string deployment),
      ("consecutive_failures", Json.ofNat failures.toNat), ("error", .string error)]
  | .hookFailed run hook error =>
    .object [("event", .string "hook_failed"), ("run_id", run.toJson), ("hook", .string hook),
      ("error", .string error)]

/-- The deployment that an event about scheduling is about. -/
def schedulingDeployment? : Event → Option String
  | .runsScheduled deployment .. => some deployment
  | .schedulingFailed deployment .. => some deployment
  | _ => none

end Event

end RunScheduler
