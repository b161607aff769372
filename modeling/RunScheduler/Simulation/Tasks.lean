import RunScheduler.Simulation.Execution

/-!
# Tasks side by side

Loops that run in one world at the same time, from its present time on. After a given time the
stop signal is given, before anything else that happens then: tasks that rest are woken by it, and
a task that is in the middle of something brings it to an end.
-/

namespace RunScheduler.Simulation

/-- Tasks that begin now, in their order. -/
def Jobs.ofScripts {α : Type} (now : Nat) (scripts : List (Script α)) : Jobs α scripts.length :=
  .ofFn fun i => .waiting ⟨now, i⟩ scripts[i]

/-- What was seen of tasks that ran for some time and were then stopped. -/
structure Stretch (α : Type) where
  /-- The tasks that had not ended when the time was over. -/
  running : List Nat
  /-- The phase of the scheduler when the time was over. -/
  phase : Phase
  /-- What the tasks ended with, in their order. -/
  results : List (Option α)

/-- Runs tasks for some time, gives the stop signal, and lets them end. -/
def runFor {α : Type} (w : World) (milliseconds : Nat) (signal : StopSignal)
    (scripts : List (Script α)) : World × Stretch α :=
  let finish := w.clock + milliseconds
  let (w, jobs) := advance steps w (.ofScripts w.clock scripts) (some finish)
  let running := (jobs.toList.zipIdx.filter (!·.1.isDone)).map (·.2)
  let phase := w.phase
  let (w, jobs) := advance steps { w with clock := finish, stop := signal } jobs none
  (w, { running, phase, results := jobs.toList.map (·.result?) })

end RunScheduler.Simulation
