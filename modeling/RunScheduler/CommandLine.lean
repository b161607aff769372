import RunScheduler.CommandLine.Options
import RunScheduler.Schedule.Evaluation
import RunScheduler.Instant.Reader
import RunScheduler.Text.Decimal

/-!
# The command line

Three commands: one runs the scheduler and its services, one registers a deployment, and one
shows the times that a schedule gives. An option with the settings file belongs to all of them
and may stand before or after the name of the command. Arguments that say no command are refused
as a whole.
-/

namespace RunScheduler

/-- A schedule as it is given on the command line. -/
structure ScheduleArguments where
  recurrence : Option Recurrence := none
  start : Option Instant := none
  stop : Option Instant := none

structure DeployArguments where
  id : String
  /-- The id, if nothing is said. -/
  name : Option String := none
  schedule : ScheduleArguments := {}
  bounds : BoundsOverride := {}
  tags : List String := []
  paused : Bool := false
  concurrencyLimit : Option UInt32 := none

structure PreviewArguments where
  schedule : ScheduleArguments := {}
  bounds : BoundsOverride := {}
  now : Option Instant := none

inductive Command
  | serve
  | deploy (arguments : DeployArguments)
  | preview (arguments : PreviewArguments)

/-- A command, and the path of the settings file. -/
structure Invocation where
  config : Option String
  command : Command

namespace CommandLine

/-! ## Values -/

/-- A number of 32 bits. Zero may have a minus sign. -/
def uint32? (s : String) : Option UInt32 :=
  match s.toList with
  | '-' :: zeros => if !zeros.isEmpty && zeros.all (· == '0') then some 0 else none
  | digits => (Text.readUpTo 4294967295 digits).toOption.map UInt32.ofNat

def uint64? (s : String) : Option UInt64 :=
  (Text.readUpTo 18446744073709551615 s.toList).toOption.map UInt64.ofNat

def path? (s : String) : Option String :=
  if s.isEmpty then none else some s

/-! ## Options -/

def commonForms : OptionForms :=
  [("config", .single)]

def scheduleForms : OptionForms :=
  [("every", .single), ("anchor", .single), ("cron", .single), ("rrule", .single),
   ("start", .single), ("end", .single)]

def boundsForms : OptionForms :=
  [("min-runs", .single), ("max-runs", .single), ("min-scheduled-time-seconds", .single),
   ("max-scheduled-time-seconds", .single)]

def deployForms : OptionForms :=
  commonForms ++ scheduleForms ++ boundsForms ++
    [("name", .single), ("tag", .repeated), ("paused", .flag), ("concurrency-limit", .single)]

def previewForms : OptionForms :=
  commonForms ++ scheduleForms ++ boundsForms ++ [("now", .single)]

/-- The recurrence, of which there is one at most. An anchor needs some recurrence, and is used
by an interval. -/
def recurrence? (o : Options) : Option (Option Recurrence) := do
  let anchor ← o.read? "anchor" Instant.ofString?
  let every ← o.read? "every" uint64?
  match every, o.value? "cron", o.value? "rrule" with
  | none, none, none => if anchor.isSome then none else some none
  | some seconds, none, none => some (some (.interval seconds anchor))
  | none, some expression, none => some (some (.cron expression))
  | none, none, some rule => some (some (.rrule rule))
  | _, _, _ => none

def schedule? (o : Options) : Option ScheduleArguments := do
  let recurrence ← recurrence? o
  let start ← o.read? "start" Instant.ofString?
  let stop ← o.read? "end" Instant.ofString?
  return { recurrence, start, stop }

def bounds? (o : Options) : Option BoundsOverride := do
  let minRuns ← o.read? "min-runs" uint64?
  let maxRuns ← o.read? "max-runs" uint64?
  let minAheadSeconds ← o.read? "min-scheduled-time-seconds" uint64?
  let maxAheadSeconds ← o.read? "max-scheduled-time-seconds" uint64?
  return { minRuns, maxRuns, minAheadSeconds, maxAheadSeconds }

/-! ## Commands -/

def deploy? (o : Options) : Option Command := do
  let [id] := o.operands | none
  let schedule ← schedule? o
  let bounds ← bounds? o
  let concurrencyLimit ← o.read? "concurrency-limit" uint32?
  return .deploy {
    id, schedule, bounds, concurrencyLimit, name := o.value? "name", tags := o.values "tag",
    paused := o.has "paused" }

def preview? (o : Options) : Option Command := do
  let [] := o.operands | none
  let schedule ← schedule? o
  let bounds ← bounds? o
  let now ← o.read? "now" Instant.ofString?
  return .preview { schedule, bounds, now }

def serve? (o : Options) : Option Command :=
  if o.operands.isEmpty then some .serve else none

/-- The options of a command, and what it makes of them. -/
def commands : List (String × OptionForms × (Options → Option Command)) :=
  [("serve", commonForms, serve?), ("deploy", deployForms, deploy?),
   ("preview", previewForms, preview?)]

end CommandLine

namespace Invocation

open CommandLine

/-- What arguments say. A settings file after the name of the command goes before one in front
of it. -/
def ofArguments? (args : List String) : Option Invocation := do
  let (common, rest) ← Options.beforeCommand? commonForms args
  let before ← common.read? "config" path?
  match rest with
  | [] => none
  | name :: rest =>
    let (forms, read) ← commands.lookup name
    let o ← Options.ofArguments? forms rest
    let after ← o.read? "config" path?
    let command ← read o
    return { config := after.or before, command }

end Invocation

end RunScheduler
