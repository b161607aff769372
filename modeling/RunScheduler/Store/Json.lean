import RunScheduler.Json.Printer
import RunScheduler.Json.Reader
import RunScheduler.Store

/-!
# The store as JSON

Deployments and runs are written; the tables beside them follow from the runs.
-/

namespace RunScheduler.Store

def toJson (s : Store) : Json :=
  .object [("deployments", .array (s.deployments.values.map Deployment.toJson)),
    ("runs", .array (s.runs.values.map Run.toJson))]

/-- Stores a run with its key and, while it is running, its slot. -/
def restoreRun (s : Store) (r : Run) : Store :=
  let s := s.putRun r
  match r.deployment with
  | none => s
  | some d =>
    let s := match r.key with
      | some key => { s with runKeys := s.runKeys.insert (keyEntry d key) r.id }
      | none => s
    if r.kind = .running then { s with slots := s.slots.insert (slotEntry d r.id) r.id } else s

def ofJson? (j : Json) : Option Store := do
  let r ← j.record? ["deployments", "runs"]
  let deployments ← r.required "deployments" (Json.listOf? Deployment.ofJson?)
  let runs ← r.required "runs" (Json.listOf? Run.ofJson?)
  return runs.foldl restoreRun (deployments.foldl putDeployment empty)

end RunScheduler.Store
