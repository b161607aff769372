import RunScheduler.Lifecycle
import RunScheduler.Scheduler

/-!
# A simulated world

A store on a virtual clock, with faults that are planned ahead: the world answers every request
of a script at once, and notes what was made known and which hooks were called. Waiting moves
the virtual clock and takes no time otherwise. The wall clock goes with the virtual one or stands
still; every reading of it is later than the one before.
-/

namespace RunScheduler.Simulation

/-! ## Planned faults -/

/-- A planned fault of a deployment's inserts: some go through, then some fail. -/
structure InsertFault where
  goThrough : Nat
  /-- All from then on, if none. -/
  fail : Option Nat

namespace InsertFault

/-- Whether the next insert fails, and what is planned after it. -/
def next (f : InsertFault) : Bool × InsertFault :=
  match f.goThrough, f.fail with
  | n + 1, fail => (false, ⟨n, fail⟩)
  | 0, none => (true, f)
  | 0, some 0 => (false, f)
  | 0, some (n + 1) => (true, ⟨0, some n⟩)

end InsertFault

/-- A hook that fails when a run gets into one of some kinds of states. -/
structure Hook where
  name : String
  failsOn : List StateKind := []
  /-- The messages of its error, the outermost first. -/
  error : List String := []

/-- A call of a hook. -/
structure HookCall where
  hook : String
  run : RunId
  previous : Option StateKind
  kind : StateKind

inductive StopSignal
  | lowered | raised
  /-- Nobody is left who could raise it. -/
  | abandoned
deriving DecidableEq, Repr

structure World where
  store : Store := {}
  hooks : List Hook := []
  insertFaults : Table String InsertFault := {}
  /-- The next so many commits fail. -/
  failingCommits : Nat := 0
  /-- The next so many queries fail. -/
  failingQueries : Nat := 0
  /-- Whether the listing with a number, counted from 0, fails. -/
  listingFails : Nat → Bool := fun _ => false
  /-- A state that somebody else moves the first run of the next query's answer to, once the
  answer is read. -/
  queryRace : Option State := none
  /-- The deployment and size of the inserts that reached the store, the latest first. -/
  inserts : List (String × Nat) := []
  /-- The number of commits, failed ones included. -/
  commits : Nat := 0
  /-- The virtual times of listings. -/
  listings : Array Nat := #[]
  /-- The latest first. -/
  events : List Event := []
  /-- The latest first. -/
  hookCalls : List HookCall := []
  phase : Phase := .idle
  stop : StopSignal := .lowered
  /-- The virtual time in milliseconds. -/
  clock : Nat := 0
  /-- The number of waits that have begun. -/
  waits : Nat := 0
  /-- What the wall clock shows at virtual time 0. -/
  start : Instant
  /-- Whether the wall clock goes with the virtual one. -/
  clockRuns : Bool := true
  /-- The number of readings of the wall clock. -/
  readings : Nat := 0
  /-- The first id for runs that come without one; the ones after it follow. -/
  firstId : RunId
  /-- The number of ids given out. -/
  ids : Nat := 0

namespace World

/-! ## Sources of instants and ids -/

/-- The wall clock, one nanosecond later with every reading. -/
def readClock (w : World) : World × Instant :=
  let elapsed := if w.clockRuns then w.clock * 1000000 else 0
  let nanos := w.start.nano + elapsed + w.readings
  ({ w with readings := w.readings + 1 },
   (Instant.of? (w.start.second + nanos / 1000000000) (nanos % 1000000000)).getD w.start)

/-- The id with a number. Ids differ in their first eight digits. -/
def idAt (w : World) (n : Nat) : RunId :=
  ⟨w.firstId.bits + BitVec.ofNat 128 n <<< 96⟩

/-- Gives an id to each element of a list. -/
def giveIds {α : Type} (w : World) (l : List α) : World × List (RunId × α) :=
  ({ w with ids := w.ids + l.length },
   l.zipIdx.map fun (a, i) => (w.idAt (w.ids + i), a))

/-! ## Answers of the store -/

def insertRuns (w : World) (deployment : String) (runs : List PlannedRun) :
    World × Except StoreError Nat :=
  let (fails, insertFaults) := match w.insertFaults.get? deployment with
    | none => (false, w.insertFaults)
    | some fault => (fault.next.1, w.insertFaults.insert deployment fault.next.2)
  let w := { w with insertFaults }
  if fails then (w, .error (.unavailable "injected insert failure"))
  else
    let (w, given) := { w with inserts := (deployment, runs.length) :: w.inserts }.giveIds runs
    let (store, n) := w.store.insertRuns deployment given
    ({ w with store }, .ok n)

def commit (w : World) (run : RunId) (expected : Expected) (next : State) :
    World × Except StoreError Run :=
  let w := { w with commits := w.commits + 1 }
  match w.failingCommits with
  | n + 1 => ({ w with failingCommits := n }, .error (.unavailable "injected transition failure"))
  | 0 =>
    match w.store.commit run expected next with
    | .error e => (w, .error e)
    | .ok (store, moved) => ({ w with store }, .ok moved)

/-- Somebody else moves a run. -/
def race (w : World) (state : State) (run : Run) : World × Except StoreError Unit :=
  match w.store.commit run.id .any state with
  | .error e => (w, .error e)
  | .ok (store, _) => ({ w with store }, .ok ())

def query (w : World) (filter : RunFilter) : World × Except StoreError (List Run) :=
  match w.failingQueries with
  | n + 1 => ({ w with failingQueries := n }, .error (.unavailable "injected query failure"))
  | 0 =>
    let runs := w.store.query filter
    match w.queryRace, runs with
    | some state, run :: _ =>
      match { w with queryRace := none }.race state run with
      | (w, .error e) => (w, .error e)
      | (w, .ok ()) => (w, .ok runs)
    | _, _ => ({ w with queryRace := none }, .ok runs)

def create (w : World) (request : RunRequest) : World × Except StoreError Run :=
  let (w, now) := w.readClock
  match w.store.create request now (w.idAt w.ids) with
  | .error e => (w, .error e)
  | .ok (store, run) => ({ w with store, ids := w.ids + 1 }, .ok run)

def listSchedulable (w : World) (token : Option String) (size : Nat) :
    World × Except StoreError Store.Page :=
  let fails := w.listingFails w.listings.size
  let w := { w with listings := w.listings.push w.clock }
  if fails then (w, .error (.unavailable "injected list failure"))
  else (w, .ok (w.store.listSchedulable token size))

def callHook (w : World) (place : Nat) (previous : Option StateKind) (run : Run) :
    World × Option (List String) :=
  match w.hooks[place]? with
  | none => (w, none)
  | some hook =>
    let call := { hook := hook.name, run := run.id, previous, kind := run.kind }
    ({ w with hookCalls := call :: w.hookCalls },
     if hook.failsOn.contains run.kind then some hook.error else none)

/-! ## All answers -/

/-- What a rest is ended by, if the stop signal ends it. -/
def wakeup? (w : World) : Option Wakeup :=
  match w.stop with
  | .lowered => none
  | .raised => some .signalled
  | .abandoned => some .abandoned

/-- Answers a request. Whoever waits or rests is the only one to do so. -/
def answer (w : World) : (r : Request) → World × r.Reply
  | .insertRuns deployment runs => w.insertRuns deployment runs
  | .findExisting deployment keys => (w, Except.ok (w.store.findExisting deployment keys))
  | .commit run expected next => w.commit run expected next
  | .query filter => w.query filter
  | .create request => w.create request
  | .listSchedulable token size => w.listSchedulable token size
  | .emit event => ({ w with events := event :: w.events }, ())
  | .callHook place previous run => w.callHook place previous run
  | .setPhase phase => ({ w with phase }, ())
  | .readClock => w.readClock
  | .stopRequested => (w, decide (w.stop = .raised))
  | .wait milliseconds => ({ w with clock := w.clock + milliseconds }, ())
  | .rest milliseconds =>
    match w.wakeup? with
    | some wakeup => (w, wakeup)
    | none => ({ w with clock := w.clock + milliseconds }, Wakeup.elapsed)

end World

end RunScheduler.Simulation
