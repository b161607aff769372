import RunScheduler.Lifecycle.Error
import RunScheduler.Script

/-!
# Changes to runs

Runs are created and moved through the store, which decides whether a change is allowed. Once a
change stands, the hooks are called in order and the end of a run is made known. A hook that
fails is made known too, and undoes nothing.
-/

namespace RunScheduler

structure Lifecycle where
  /-- The names of the hooks, in the order of their calls. -/
  hooks : List String := []
  retry : RetryPolicy := {}

namespace Lifecycle

/-- The messages of an error and its causes, the outermost first, as one text. -/
def chainText (messages : List String) : String :=
  ": ".intercalate messages

/-- Calls hooks, the first of which has the given place, one after another. -/
def callHooks (previous : Option StateKind) (run : Run) : List String → Nat → Script Unit
  | [], _ => return
  | name :: names, place => do
    match ← Script.call (.callHook place previous run) with
    | none => pure ()
    | some messages => Script.call (.emit (.hookFailed run.id name (chainText messages)))
    callHooks previous run names (place + 1)

/-- What follows a change that stands. -/
def afterChange (l : Lifecycle) (previous : Option StateKind) (run : Run) : Script Unit := do
  callHooks previous run l.hooks 0
  if run.state.isTerminal then
    Script.call (.emit (.runEnded run.id run.deployment run.kind run.state.time))

/-- Moves a run whose state is as expected. -/
def transition (l : Lifecycle) (run : RunId) (expected : Expected) (next : State) :
    Script (Except TransitionError Run) := do
  match ← Script.retry l.retry (Script.call (.commit run expected next)) with
  | .error e => return .error (.ofStore l.retry.attempts e)
  | .ok moved =>
    l.afterChange (moved.history.getLast?.map (·.kind)) moved
    return .ok moved

/-- Creates a run. A run that was there before and has moved since is only returned. -/
def create (l : Lifecycle) (request : RunRequest) : Script (Except TransitionError Run) := do
  match ← Script.retry l.retry (Script.call (.create request)) with
  | .error e => return .error (.ofStore l.retry.attempts e)
  | .ok run =>
    if run.history.isEmpty then l.afterChange none run
    return .ok run

end Lifecycle

end RunScheduler
