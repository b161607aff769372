import RunScheduler.Run
import RunScheduler.Schedule.Json

/-!
# Deployments

Something that runs by a schedule: the schedule, how many runs are planned ahead, and how many
may run at once. The scheduled run of a deployment at an instant has a key made of the
deployment's id and the instant; no two runs of one deployment have the same key.
-/

namespace RunScheduler

structure Deployment where
  id : String
  name : String
  schedule : Option Schedule := none
  paused : Bool := false
  /-- How many runs may be running at once. -/
  concurrencyLimit : Option UInt32 := none
  bounds : BoundsOverride := {}
  /-- Given to every scheduled run. -/
  tags : List String := []
  createdAt : Instant
  updatedAt : Instant
deriving DecidableEq

namespace Deployment

/-- Whether runs are to be planned. -/
def isSchedulable (d : Deployment) : Bool :=
  !d.paused && d.schedule.isSome

def fieldNames : List String :=
  ["id", "name", "schedule", "paused", "concurrency_limit", "bounds", "tags", "created_at",
   "updated_at"]

def ofJson? (j : Json) : Option Deployment := do
  let r ← j.record? fieldNames
  let id ← r.required "id" Json.string?
  let name ← r.required "name" Json.string?
  let schedule ← r.optional "schedule" Schedule.ofJson?
  let paused ← r.withDefault "paused" Json.bool? false
  let concurrencyLimit ← r.optional "concurrency_limit" Json.uint32?
  let bounds ← r.withDefault "bounds" BoundsOverride.ofJson? {}
  let tags ← r.withDefault "tags" (Json.listOf? Json.string?) []
  let createdAt ← r.required "created_at" Instant.ofJson?
  let updatedAt ← r.required "updated_at" Instant.ofJson?
  return { id, name, schedule, paused, concurrencyLimit, bounds, tags, createdAt, updatedAt }

def toJson (d : Deployment) : Json :=
  .object [
    ("id", .string d.id),
    ("name", .string d.name),
    ("schedule", Json.ofOption Schedule.toJson d.schedule),
    ("paused", .bool d.paused),
    ("concurrency_limit", Json.ofOption (fun n : UInt32 => Json.ofNat n.toNat) d.concurrencyLimit),
    ("bounds", d.bounds.toJson),
    ("tags", .array (d.tags.map .string)),
    ("created_at", d.createdAt.toJson),
    ("updated_at", d.updatedAt.toJson)]

end Deployment

/-! ## Scheduled runs -/

/-- The key of a deployment's run at an instant. -/
def runKey (deployment : String) (time : Instant) : String :=
  "scheduled " ++ deployment ++ " " ++ time.toOffsetString

/-- A run that is to be stored as scheduled. -/
structure PlannedRun where
  name : String
  scheduledTime : Instant
  key : String
  tags : List String := []
  createdAt : Instant
deriving DecidableEq

namespace PlannedRun

/-- The run of a deployment at an instant. -/
def ofDeployment (d : Deployment) (time createdAt : Instant) : PlannedRun where
  name := d.name ++ "-" ++ time.toCompactString
  scheduledTime := time
  key := runKey d.id time
  tags := d.tags
  createdAt := createdAt

def toRun (p : PlannedRun) (deployment : String) (id : RunId) : Run where
  id := id
  deployment := some deployment
  name := p.name
  scheduledTime := p.scheduledTime
  state := { kind := .scheduled, time := p.createdAt }
  key := some p.key
  tags := p.tags
  createdAt := p.createdAt
  updatedAt := p.createdAt

end PlannedRun

end RunScheduler
