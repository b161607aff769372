import RunScheduler.Housekeeping

/-!
# Clean-up after cancellations

The descendants of a cancelled run that have not ended are cancelled too. The walk goes through
every child, ended or not, so that a running grandchild below an ended child is found, and
through the children of each run once.
-/

namespace RunScheduler

structure CancellationCleanup where
  lifecycle : Lifecycle := {}
  /-- Milliseconds between passes. -/
  interval : Nat := 20000
  /-- The most runs queried at once; none counts as one. -/
  batchSize : Nat := 200
  /-- Only runs cancelled so recently are looked at. -/
  lookback : Span := .day

namespace CancellationCleanup

def parentCancelledMessage : String := "The parent run was cancelled."

/-- What the walk has done, and the runs whose children are still to be seen, the next in
front. -/
structure Walk where
  stats : PassStats := {}
  visited : List RunId := []
  stack : List RunId := []

/-- The most runs queried at once. -/
def limit (s : CancellationCleanup) : Nat :=
  max s.batchSize 1

/-- Cancels a child as it was seen, unless it has ended. -/
def cancelChild (s : CancellationCleanup) (now : Instant) (w : Walk) (child : Run) :
    Script Walk := do
  let w := { w with stack := child.id :: w.stack }
  if child.state.isTerminal then return w
  let outcome ← s.lifecycle.transition child.id (.ofKind child.kind)
    { kind := .cancelled, time := now, message := some parentCancelledMessage }
  return { w with stats := { w.stats with examined := w.stats.examined + 1 }.count outcome }

def cancelChildren (s : CancellationCleanup) (now : Instant) (w : Walk) :
    List Run → Script Walk
  | [] => return w
  | child :: children => do
    let w ← s.cancelChild now w child
    s.cancelChildren now w children

abbrev Outcome := Except HousekeepingError Walk

/-- Deals with one page of the children of a run, which starts after those seen before. -/
def childrenStep (s : CancellationCleanup) (now : Instant) (parent : RunId) :
    Nat × Walk → Script (Nat × Walk ⊕ Outcome)
  | (offset, w) => do
    let filter : RunFilter := { parent := some parent }
    match ← Script.call (.query (filter.page s.limit offset)) with
    | .error e => return .inr (.error (.state e))
    | .ok children =>
      let w ← s.cancelChildren now w children
      if children.length < s.limit then return .inr (.ok w)
      else return .inl (offset + children.length, w)

/-- Takes one run off the stack and deals with its children, if it was not seen before. -/
def descendantsStep (s : CancellationCleanup) (now : Instant) (w : Walk) :
    Script (Walk ⊕ Outcome) :=
  match w.stack with
  | [] => return .inr (.ok w)
  | parent :: stack => do
    let w := { w with stack }
    if w.visited.contains parent then return .inl w
    let w := { w with visited := parent :: w.visited }
    match ← Script.repeatFrom (0, w) (s.childrenStep now parent) with
    | .error e => return .inr (.error e)
    | .ok w => return .inl w

/-- Cancels what is below each of the runs. -/
def cancelBelow (s : CancellationCleanup) (now : Instant) (w : Walk) :
    List Run → Script Outcome
  | [] => return .ok w
  | root :: roots => do
    match ← Script.repeatFrom { w with stack := [root.id] } (s.descendantsStep now) with
    | .error e => return .error e
    | .ok w => s.cancelBelow now w roots

/-- Deals with one page of cancelled runs, which starts after those seen before. -/
def passStep (s : CancellationCleanup) (now since : Instant) :
    Nat × Walk → Script (Nat × Walk ⊕ Outcome)
  | (offset, w) => do
    let filter : RunFilter := { kinds := [.cancelled], updatedSince := some since }
    match ← Script.call (.query (filter.page s.limit offset)) with
    | .error e => return .inr (.error (.state e))
    | .ok cancelled =>
      match ← s.cancelBelow now w cancelled with
      | .error e => return .inr (.error e)
      | .ok w =>
        if cancelled.length < s.limit then return .inr (.ok w)
        else return .inl (offset + cancelled.length, w)

def pass (s : CancellationCleanup) (now : Instant) :
    Script (Except HousekeepingError PassStats) :=
  match now.sub? s.lookback with
  | none => return .error .cutoffOutOfRange
  | some since => do
    let outcome ← Script.repeatFrom (0, {}) (s.passStep now since)
    return outcome.map (·.stats)

def service (s : CancellationCleanup) : Service Unit :=
  .independent "cancellation_cleanup" s.interval s.pass

end CancellationCleanup

end RunScheduler
