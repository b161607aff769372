import RunScheduler.Instant.Printer
import RunScheduler.Instant.Reader
import RunScheduler.Json

/-!
# States of runs

The kinds of states a run goes through, the table of moves between them, a state with its time
and message, and what a caller may expect of a state. Main fact: nothing moves out of a terminal
kind.
-/

namespace RunScheduler

/-! ## Kinds -/

inductive StateKind
  | scheduled | late | pending | running | paused | completed | failed | crashed | cancelled
deriving DecidableEq, Repr, Inhabited

namespace StateKind

def all : List StateKind :=
  [.scheduled, .late, .pending, .running, .paused, .completed, .failed, .crashed, .cancelled]

/-- The kinds that a run in this kind may move to. -/
def next : StateKind → List StateKind
  | .scheduled => [.late, .pending, .cancelled]
  | .late => [.pending, .cancelled]
  | .pending => [.running, .crashed, .cancelled]
  | .running => [.paused, .completed, .failed, .crashed, .cancelled]
  | .paused => [.running, .failed, .cancelled]
  | .completed | .failed | .crashed | .cancelled => []

def canBecome (k next : StateKind) : Bool :=
  k.next.contains next

/-- Whether a run in this kind has ended. -/
def isTerminal : StateKind → Bool
  | .completed | .failed | .crashed | .cancelled => true
  | _ => false

def name : StateKind → String
  | .scheduled => "SCHEDULED"
  | .late => "LATE"
  | .pending => "PENDING"
  | .running => "RUNNING"
  | .paused => "PAUSED"
  | .completed => "COMPLETED"
  | .failed => "FAILED"
  | .crashed => "CRASHED"
  | .cancelled => "CANCELLED"

def ofName? (s : String) : Option StateKind :=
  all.find? (·.name = s)

def ofJson? (j : Json) : Option StateKind :=
  j.variant?.bind ofName?

def toJson (k : StateKind) : Json :=
  .string k.name

theorem mem_all (k : StateKind) : k ∈ all := by
  cases k <;> decide

theorem ofName?_name (k : StateKind) : ofName? k.name = some k := by
  cases k <;> decide

theorem next_eq_nil_iff (k : StateKind) : k.next = [] ↔ k.isTerminal = true := by
  cases k <;> decide

end StateKind

/-! ## States -/

/-- A state that a run is or was in. -/
structure State where
  kind : StateKind
  time : Instant
  message : Option String := none
  /-- When a paused run is given up. -/
  pauseDeadline : Option Instant := none
deriving DecidableEq

namespace State

def isTerminal (s : State) : Bool := s.kind.isTerminal

end State

namespace Instant

def ofJson? (j : Json) : Option Instant :=
  j.string?.bind ofString?

def toJson (t : Instant) : Json :=
  .string t.toString

end Instant

namespace State

def fieldNames : List String := ["kind", "timestamp", "message", "pause_deadline"]

def ofJson? (j : Json) : Option State := do
  let r ← j.record? fieldNames
  let kind ← r.required "kind" StateKind.ofJson?
  let time ← r.required "timestamp" Instant.ofJson?
  let message ← r.optional "message" Json.string?
  let pauseDeadline ← r.optional "pause_deadline" Instant.ofJson?
  return { kind, time, message, pauseDeadline }

def toJson (s : State) : Json :=
  .object ([("kind", s.kind.toJson), ("timestamp", s.time.toJson)] ++
    Json.memberIfSome "message" .string s.message ++
    Json.memberIfSome "pause_deadline" Instant.toJson s.pauseDeadline)

end State

/-! ## Expectations -/

/-- What a caller last saw of a run's state. -/
structure Expected where
  /-- The kind it was, if that matters. -/
  kind : Option StateKind := none
  /-- An instant at or before which the pause has to expire, if that matters. -/
  pauseExpiredBy : Option Instant := none
deriving DecidableEq

namespace Expected

/-- Expects nothing. -/
def any : Expected := {}

def ofKind (k : StateKind) : Expected := { kind := some k }

def holds (e : Expected) (s : State) : Bool :=
  (match e.kind with
    | none => true
    | some k => decide (s.kind = k)) &&
  match e.pauseExpiredBy with
  | none => true
  | some limit => s.pauseDeadline.any (· ≤ limit)

end Expected

end RunScheduler
