import RunScheduler.Deployment
import RunScheduler.Store.Table

/-!
# The store

Runs, deployments, and two tables kept beside them: the keys of scheduled runs, so that none is
stored twice, and the slots of running runs, so that no more of a deployment run than it allows.
Every operation takes effect at once and completely, or fails and changes nothing.

Entries of the two tables are texts: the deployment's id, a bar, and the key or the run's id.
-/

namespace RunScheduler

structure Store where
  runs : Table RunId Run := {}
  deployments : Table String Deployment := {}
  /-- The run stored under each deployment's key. -/
  runKeys : Table String RunId := {}
  /-- The run that holds each slot. -/
  slots : Table String RunId := {}

namespace Store

/-- The store that nothing was put in. -/
def empty : Store := {}

/-! ## Entries -/

def keyEntry (deployment key : String) : String :=
  deployment ++ "|" ++ key

def slotEntry (deployment : String) (run : RunId) : String :=
  deployment ++ "|" ++ run.toString

/-- The entries counted as a deployment's slots run from its id with a bar up to its id with a
closing brace, the character after the bar. -/
def occupiedSlots (s : Store) (deployment : String) : Nat :=
  (s.slots.range (deployment ++ "|") (deployment ++ "\x7d")).length

/-! ## Deployments -/

def putDeployment (s : Store) (d : Deployment) : Store :=
  { s with deployments := s.deployments.insert d.id d }

def getDeployment (s : Store) (id : String) : Option Deployment :=
  s.deployments.get? id

/-- All deployments in the order of their ids. -/
def listDeployments (s : Store) : List Deployment :=
  s.deployments.values

/-- A page of deployments, and where the next one begins. -/
structure Page where
  deployments : List Deployment := []
  next : Option String := none

/-- Up to `size` schedulable deployments after an id, in the order of ids. Only a full page has
a next one. -/
def listSchedulable (s : Store) (token : Option String) (size : Nat) : Page :=
  if size = 0 then {}
  else
    let listed := match token with
      | none => s.deployments.entries
      | some id => s.deployments.after id
    let deployments := ((listed.map (·.2)).filter (·.isSchedulable)).take size
    { deployments
      next := if deployments.length = size then (deployments.getLast?).map (·.id) else none }

/-! ## Slots -/

/-- The limit on running runs of a stored deployment. -/
def limitOf (s : Store) (deployment : String) : Option UInt32 :=
  (s.getDeployment deployment).bind (·.concurrencyLimit)

/-- Takes a slot for a run that starts running, which the deployment's limit may forbid, and
gives it back when the run stops. A run without a deployment needs no slot. -/
def moveSlot (s : Store) (deployment : Option String) (run : RunId) (from? : Option StateKind)
    (target : StateKind) : Except StoreError Store :=
  match deployment with
  | none => .ok s
  | some d =>
    if target = .running ∧ from? ≠ some .running then
      match s.limitOf d with
      | some limit =>
        if limit.toNat ≤ s.occupiedSlots d then .error (.concurrencyLimit d limit)
        else .ok { s with slots := s.slots.insert (slotEntry d run) run }
      | none => .ok { s with slots := s.slots.insert (slotEntry d run) run }
    else if from? = some .running ∧ target ≠ .running then
      .ok { s with slots := s.slots.erase (slotEntry d run) }
    else .ok s

/-! ## Runs -/

def getRun (s : Store) (id : RunId) : Option Run :=
  s.runs.get? id

def putRun (s : Store) (r : Run) : Store :=
  { s with runs := s.runs.insert r.id r }

/-- Stores a scheduled run under an id if the deployment has none with its key, and says whether
it did. -/
def insertPlanned (s : Store) (deployment : String) (id : RunId) (p : PlannedRun) :
    Store × Bool :=
  if s.runKeys.contains (keyEntry deployment p.key) then (s, false)
  else
    ({ s.putRun (p.toRun deployment id) with
        runKeys := s.runKeys.insert (keyEntry deployment p.key) id }, true)

/-- Stores scheduled runs, each under the id given with it, passing over those whose key the
deployment has already, and counts the runs stored. -/
def insertRuns (s : Store) (deployment : String) : List (RunId × PlannedRun) → Store × Nat
  | [] => (s, 0)
  | (id, p) :: rest =>
    let (s, stored) := s.insertPlanned deployment id p
    let (s, n) := s.insertRuns deployment rest
    (s, if stored then n + 1 else n)

/-- The keys among those given that the deployment has. -/
def findExisting (s : Store) (deployment : String) (keys : List String) : List String :=
  keys.filter fun key => s.runKeys.contains (keyEntry deployment key)

/-- Moves a stored run, if its state is still as expected and a slot is free where one is
needed. -/
def commit (s : Store) (id : RunId) (expected : Expected) (next : State) :
    Except StoreError (Store × Run) :=
  match s.getRun id with
  | none => .error (.runNotFound id)
  | some run =>
    match run.move expected next with
    | .error e => .error e
    | .ok moved =>
      match s.moveSlot moved.deployment id (some run.kind) moved.kind with
      | .error e => .error e
      | .ok s => .ok (s.putRun moved, moved)

/-- Stores the run of a request at an instant, under `freshId` if the request has no id. A run
stored before under the request's id is returned as it is. -/
def create (s : Store) (request : RunRequest) (now : Instant) (freshId : RunId) :
    Except StoreError (Store × Run) :=
  match request.id.bind s.getRun with
  | some existing => .ok (s, existing)
  | none =>
    match request.toRun now freshId with
    | .error e => .error e
    | .ok run =>
      match s.moveSlot run.deployment run.id none run.kind with
      | .error e => .error e
      | .ok s => .ok (s.putRun run, run)

/-- Whether a run comes before another: by scheduled time, then by id. -/
def runOrder (a b : Run) : Bool :=
  decide (a.scheduledTime < b.scheduledTime) ||
    (decide (a.scheduledTime = b.scheduledTime) && !decide (b.id < a.id))

/-- All selected runs in order. -/
def selected (s : Store) (f : RunFilter) : List Run :=
  (s.runs.values.filter f.selects).mergeSort runOrder

/-- The page of selected runs that the filter asks for. -/
def query (s : Store) (f : RunFilter) : List Run :=
  ((s.selected f).drop f.offset).take f.limit

end Store

end RunScheduler
