import RunScheduler.Json.Fields
import RunScheduler.Run.State
import RunScheduler.Schedule.Evaluation

/-!
# Schedules as JSON

A definition is an object with its recurrence and the instants it has. A recurrence says its
type and, beside it, what that type needs; only a valid definition is read as a schedule.
-/

namespace RunScheduler

namespace Recurrence

/-- Reads the fields of a recurrence of a named type. -/
def ofFields? (name : String) (fields : List String → Option Json.Record) : Option Recurrence :=
  match name with
  | "interval" => do
    let r ← fields ["every_seconds", "anchor"]
    let everySeconds ← r.required "every_seconds" Json.uint64?
    let anchor ← r.optional "anchor" Instant.ofJson?
    return .interval everySeconds anchor
  | "cron" => do
    let r ← fields ["expression"]
    let expression ← r.required "expression" Json.string?
    return .cron expression
  | "rrule" => do
    let r ← fields ["rule"]
    let rule ← r.required "rule" Json.string?
    return .rrule rule
  | _ => none

/-- The type is a member of the object like the fields, or the first item of an array. -/
def ofJson? : Json → Option Recurrence
  | .object members =>
    match members.filter (·.1 == "type") with
    | [(_, .string name)] =>
      ofFields? name fun names =>
        Json.record? names (.object (members.filter (·.1 != "type")))
    | _ => none
  | .array (.string name :: items) => ofFields? name fun names => Json.record? names (.array items)
  | _ => none

def toJson : Recurrence → Json
  | .interval everySeconds anchor =>
    .object ([("type", .string "interval"), ("every_seconds", Json.ofNat everySeconds.toNat)] ++
      Json.memberIfSome "anchor" Instant.toJson anchor)
  | .cron expression => .object [("type", .string "cron"), ("expression", .string expression)]
  | .rrule rule => .object [("type", .string "rrule"), ("rule", .string rule)]

end Recurrence

namespace Schedule

def Definition.fieldNames : List String :=
  ["recurrence", "start", "end"]

def Definition.ofJson? (j : Json) : Option Definition := do
  let r ← j.record? fieldNames
  let recurrence ← r.required "recurrence" Recurrence.ofJson?
  let start ← r.optional "start" Instant.ofJson?
  let stop ← r.optional "end" Instant.ofJson?
  return { recurrence, start, stop }

def Definition.ofText? (s : List Char) : Option Definition :=
  (Json.fieldsOfText? fieldNames s).bind ofJson?

def Definition.toJson (d : Definition) : Json :=
  .object ([("recurrence", d.recurrence.toJson)] ++
    Json.memberIfSome "start" Instant.toJson d.start ++
    Json.memberIfSome "end" Instant.toJson d.stop)

def ofJson? (j : Json) : Option Schedule :=
  (Definition.ofJson? j).bind fun d => (ofDefinition d).toOption

def toJson (s : Schedule) : Json :=
  s.definition.toJson

end Schedule

namespace BoundsOverride

def fieldNames : List String :=
  ["min_runs", "max_runs", "min_scheduled_time_seconds", "max_scheduled_time_seconds"]

def ofJson? (j : Json) : Option BoundsOverride := do
  let r ← j.record? fieldNames
  let minRuns ← r.optional "min_runs" Json.uint64?
  let maxRuns ← r.optional "max_runs" Json.uint64?
  let minAheadSeconds ← r.optional "min_scheduled_time_seconds" Json.uint64?
  let maxAheadSeconds ← r.optional "max_scheduled_time_seconds" Json.uint64?
  return { minRuns, maxRuns, minAheadSeconds, maxAheadSeconds }

def toJson (o : BoundsOverride) : Json :=
  let member name := Json.memberIfSome name fun n : UInt64 => Json.ofNat n.toNat
  .object (member "min_runs" o.minRuns ++ member "max_runs" o.maxRuns ++
    member "min_scheduled_time_seconds" o.minAheadSeconds ++
    member "max_scheduled_time_seconds" o.maxAheadSeconds)

end BoundsOverride

end RunScheduler
