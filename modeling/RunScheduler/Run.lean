import RunScheduler.Store.Error

/-!
# Runs

One attempt to execute something: its state now, the states before it, and where it came from.
Main fact: the states of a run that enters another are those it had, and then that one.
-/

namespace RunScheduler

structure Run where
  id : RunId
  deployment : Option String := none
  name : String
  scheduledTime : Instant
  state : State
  /-- The states before, oldest first. -/
  history : List State := []
  /-- Names the deployment and time of a scheduled run. -/
  key : Option String := none
  tags : List String := []
  parent : Option RunId := none
  taskKey : Option String := none
  dynamicKey : Option String := none
  createdAt : Instant
  updatedAt : Instant
deriving DecidableEq

namespace Run

def kind (r : Run) : StateKind := r.state.kind

/-- All states of a run, oldest first. -/
def states (r : Run) : List State := r.history ++ [r.state]

/-- Whether a run may move, for a caller with an expectation. -/
def mayMove (r : Run) (expected : Expected) (next : State) : Bool :=
  expected.holds r.state && r.kind.canBecome next.kind

/-- The run in its next state. -/
def enter (r : Run) (next : State) : Run :=
  { r with state := next, history := r.history ++ [r.state], updatedAt := next.time }

/-- Moves a run if its state is as expected and the move is in the table. -/
def move (r : Run) (expected : Expected) (next : State) : Except StoreError Run :=
  if r.mayMove expected next then .ok (r.enter next)
  else .error (.illegalMove r.id (some r.kind) next.kind)

theorem states_enter (r : Run) (next : State) : (r.enter next).states = r.states ++ [next] := by
  simp [states, enter]

/-! ## As JSON -/

def fieldNames : List String :=
  ["id", "deployment_id", "name", "scheduled_time", "state", "history", "idempotency_key",
   "tags", "parent_run_id", "task_key", "dynamic_key", "created_at", "updated_at"]

def ofJson? (j : Json) : Option Run := do
  let r ← j.record? fieldNames
  let id ← r.required "id" RunId.ofJson?
  let deployment ← r.optional "deployment_id" Json.string?
  let name ← r.required "name" Json.string?
  let scheduledTime ← r.required "scheduled_time" Instant.ofJson?
  let state ← r.required "state" State.ofJson?
  let history ← r.withDefault "history" (Json.listOf? State.ofJson?) []
  let key ← r.optional "idempotency_key" Json.string?
  let tags ← r.withDefault "tags" (Json.listOf? Json.string?) []
  let parent ← r.optional "parent_run_id" RunId.ofJson?
  let taskKey ← r.optional "task_key" Json.string?
  let dynamicKey ← r.optional "dynamic_key" Json.string?
  let createdAt ← r.required "created_at" Instant.ofJson?
  let updatedAt ← r.required "updated_at" Instant.ofJson?
  return { id, deployment, name, scheduledTime, state, history, key, tags, parent, taskKey,
           dynamicKey, createdAt, updatedAt }

def toJson (r : Run) : Json :=
  .object [
    ("id", r.id.toJson),
    ("deployment_id", Json.ofOption .string r.deployment),
    ("name", .string r.name),
    ("scheduled_time", r.scheduledTime.toJson),
    ("state", r.state.toJson),
    ("history", .array (r.history.map State.toJson)),
    ("idempotency_key", Json.ofOption .string r.key),
    ("tags", .array (r.tags.map .string)),
    ("parent_run_id", Json.ofOption RunId.toJson r.parent),
    ("task_key", Json.ofOption .string r.taskKey),
    ("dynamic_key", Json.ofOption .string r.dynamicKey),
    ("created_at", r.createdAt.toJson),
    ("updated_at", r.updatedAt.toJson)]

end Run

/-! ## Requests for a run -/

/-- What someone who wants a run started says about it. -/
structure RunRequest where
  id : Option RunId := none
  name : Option String := none
  deployment : Option String := none
  parent : Option RunId := none
  taskKey : Option String := none
  dynamicKey : Option String := none
  tags : List String := []
  /-- Pending, or running from the start; pending if nothing is said. -/
  state : Option State := none
deriving DecidableEq

namespace RunRequest

/-- The name of a run without one of its own. -/
def defaultName (taskKey : Option String) (id : RunId) : String :=
  taskKey.getD "run" ++ "-" ++ String.ofList id.shortText

/-- The run asked for, at an instant and with an id for a request that has none. -/
def toRun (r : RunRequest) (now : Instant) (freshId : RunId) : Except StoreError Run :=
  let id := r.id.getD freshId
  let state := r.state.getD { kind := .pending, time := now }
  if state.kind = .pending ∨ state.kind = .running then
    .ok {
      id
      deployment := r.deployment
      name := r.name.getD (defaultName r.taskKey id)
      scheduledTime := state.time
      state
      tags := r.tags
      parent := r.parent
      taskKey := r.taskKey
      dynamicKey := r.dynamicKey
      createdAt := now
      updatedAt := now }
  else .error (.illegalMove id none state.kind)

def fieldNames : List String :=
  ["id", "name", "deployment_id", "parent_run_id", "task_key", "dynamic_key", "tags", "state"]

def ofJson? (j : Json) : Option RunRequest := do
  let r ← j.record? fieldNames
  let id ← r.optional "id" RunId.ofJson?
  let name ← r.optional "name" Json.string?
  let deployment ← r.optional "deployment_id" Json.string?
  let parent ← r.optional "parent_run_id" RunId.ofJson?
  let taskKey ← r.optional "task_key" Json.string?
  let dynamicKey ← r.optional "dynamic_key" Json.string?
  let tags ← r.withDefault "tags" (Json.listOf? Json.string?) []
  let state ← r.optional "state" State.ofJson?
  return { id, name, deployment, parent, taskKey, dynamicKey, tags, state }

end RunRequest

/-! ## Selection of runs -/

/-- Which runs are wanted, and which page of them. -/
structure RunFilter where
  deployment : Option String := none
  /-- Any kind if empty. -/
  kinds : List StateKind := []
  /-- Scheduled strictly before. -/
  scheduledBefore : Option Instant := none
  /-- Paused with a deadline at or before. -/
  pauseExpiredBy : Option Instant := none
  parent : Option RunId := none
  /-- Changed at or after. -/
  updatedSince : Option Instant := none
  limit : Nat := 200
  offset : Nat := 0

namespace RunFilter

def selects (f : RunFilter) (r : Run) : Bool :=
  f.deployment.all (fun d => r.deployment == some d) &&
    (f.kinds.isEmpty || f.kinds.contains r.kind) &&
    f.scheduledBefore.all (fun t => decide (r.scheduledTime < t)) &&
    f.pauseExpiredBy.all (fun t => r.state.pauseDeadline.any (· ≤ t)) &&
    f.parent.all (fun p => r.parent == some p) &&
    f.updatedSince.all (fun t => decide (t ≤ r.updatedAt))

def page (f : RunFilter) (limit offset : Nat) : RunFilter :=
  { f with limit, offset }

end RunFilter

end RunScheduler
