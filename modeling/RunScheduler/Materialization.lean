import RunScheduler.Schedule.Evaluation
import RunScheduler.Script

/-!
# Materialization

The scheduled runs that a deployment lacks are stored, oldest first, in chunks of limited size;
a chunk is stored completely or not at all. Runs whose key is stored already are left out, so
that doing it again stores nothing. A chunk that cannot be stored ends the work; the chunks
before it stay.
-/

namespace RunScheduler

/-- Why the runs of a deployment, or a page of deployments, could not be dealt with. -/
inductive SchedulingError
  | partialBatch (deployment : String) (inserted : Nat) (source : StoreError)
  | state (source : StoreError)
deriving DecidableEq

namespace SchedulingError

def message : SchedulingError → String
  | .partialBatch deployment inserted source =>
    "partial batch failure for deployment " ++ deployment ++ ": " ++
      String.ofList (Text.natText inserted) ++ " run(s) inserted before: " ++ source.message
  | .state source => "state store error: " ++ source.message

end SchedulingError

structure Materializer where
  /-- The most runs in a chunk; none counts as one. -/
  insertBatchSize : Nat := 500
  /-- Used where a deployment has no bounds of its own. -/
  bounds : Bounds := {}
  retry : RetryPolicy := {}

/-- What was done for one deployment. -/
structure Materialization where
  candidates : Nat := 0
  alreadyPresent : Nat := 0
  inserted : Nat := 0
  chunks : Nat := 0
deriving DecidableEq, Repr

namespace Materializer

/-- The runs wanted as of an instant, oldest first. -/
def candidates (m : Materializer) (d : Deployment) (now : Instant) : List PlannedRun :=
  match d.schedule with
  | none => []
  | some schedule =>
    (schedule.evaluate now (d.bounds.apply m.bounds)).map fun t => .ofDeployment d t now

/-- Cuts a list into chunks of a size, the last of which may be shorter. -/
def chunksOf {α : Type} (size : Nat) (l : List α) : List (List α) :=
  match l with
  | [] => []
  | a :: l => (a :: l).take (max size 1) :: chunksOf size (l.drop (max size 1 - 1))
termination_by l.length
decreasing_by simp only [List.length_drop, List.length_cons]; omega

/-- What is made known of a chunk of which some runs were stored. -/
def announce (d : Deployment) (chunk : List PlannedRun) (inserted : Nat) : Script Unit :=
  match chunk.head?, chunk.getLast? with
  | some first, some last =>
    if 0 < inserted then
      Script.call (.emit (.runsScheduled d.id inserted first.scheduledTime last.scheduledTime))
    else return
  | _, _ => return

/-- Stores chunks one after another, until one cannot be stored. -/
def insertChunks (m : Materializer) (d : Deployment) (report : Materialization) :
    List (List PlannedRun) → Script (Except SchedulingError Materialization)
  | [] => return .ok report
  | chunk :: chunks => do
    match ← Script.retry m.retry (Script.call (.insertRuns d.id chunk)) with
    | .error e => return .error (.partialBatch d.id report.inserted e)
    | .ok inserted =>
      announce d chunk inserted
      let report := { report with
        chunks := report.chunks + 1, inserted := report.inserted + inserted }
      m.insertChunks d report chunks

/-- Stores the runs of a deployment that are wanted as of an instant and not stored yet. -/
def materialize (m : Materializer) (d : Deployment) (now : Instant) :
    Script (Except SchedulingError Materialization) := do
  let runs := m.candidates d now
  if runs.isEmpty then return .ok {}
  match ← Script.retry m.retry (Script.call (.findExisting d.id (runs.map (·.key)))) with
  | .error e => return .error (.state e)
  | .ok existing =>
    let fresh := runs.filter fun r => !existing.contains r.key
    let report : Materialization :=
      { candidates := runs.length, alreadyPresent := runs.length - fresh.length }
    m.insertChunks d report (chunksOf m.insertBatchSize fresh)

theorem flatten_chunksOf {α : Type} (size : Nat) (l : List α) :
    (chunksOf size l).flatten = l := by
  fun_induction chunksOf size l with
  | case1 => rfl
  | case2 a l ih =>
    obtain ⟨n, hn⟩ : ∃ n, max size 1 = n + 1 := ⟨max size 1 - 1, by omega⟩
    rw [List.flatten_cons, ih, hn, List.take_succ_cons]
    simp

end Materializer

end RunScheduler
