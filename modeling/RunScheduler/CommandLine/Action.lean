import RunScheduler.CommandLine
import RunScheduler.Daemon
import RunScheduler.Settings.Environment
import RunScheduler.Settings.Toml
import RunScheduler.Store

/-!
# What commands do

A command is carried out once the settings hold: those of the file, with the environment applied
to them. Everything here is a function of what was read; files and clocks are for the caller.
-/

namespace RunScheduler

/-- Why a command fails. -/
inductive CommandError
  | settings (e : SettingsError)
  | cannotMakeDirectory (text : String)
  | store (e : StoreError)
  | schedule (e : Schedule.Error)
  | noRecurrence
  | span (e : ResolvedSettings.SpanOutOfRange)

namespace CommandError

def message : CommandError → String
  | .settings e => e.message
  | .cannotMakeDirectory text => text
  | .store e => e.message
  | .schedule e => e.message
  | .noRecurrence => "one of --every, --cron or --rrule is required"
  | .span e => e.message

end CommandError

/-! ## Settings -/

namespace CommandLine

/-- The settings that the text of a file, the environment and the user's home directory give, and
the variables that name no setting. The text is missing if there is no file. -/
def settings (fileText : Option String) (environment : List (String × String))
    (userHome : Option String) : Except SettingsError (ResolvedSettings × List String) := do
  let base ← match fileText with
    | none => .ok {}
    | some text =>
      match Settings.ofTomlText? text with
      | some s => .ok s
      | none => .error (.parse "the text is no settings file")
  let o := base.applyEnvironment environment
  let unknown ← o.outcome
  return (← o.settings.resolve userHome, unknown)

end CommandLine

/-! ## Schedules -/

namespace ScheduleArguments

/-- The schedule, if one was given. -/
def build (a : ScheduleArguments) : Except CommandError (Option Schedule) :=
  match a.recurrence with
  | none => .ok none
  | some recurrence =>
    match Schedule.ofDefinition { recurrence, start := a.start, stop := a.stop } with
    | .ok s => .ok (some s)
    | .error e => .error (.schedule e)

end ScheduleArguments

/-! ## Deploying -/

namespace DeployArguments

/-- The deployment that arguments describe. -/
def toDeployment (a : DeployArguments) (now : Instant) : Except CommandError Deployment := do
  let schedule ← a.schedule.build
  return {
    id := a.id, name := a.name.getD a.id, schedule, paused := a.paused,
    concurrencyLimit := a.concurrencyLimit, bounds := a.bounds, tags := a.tags,
    createdAt := now, updatedAt := now }

/-- Stores a deployment; one stored before under its id keeps the time of its creation. -/
def deploy (a : DeployArguments) (store : Store) (now : Instant) :
    Except CommandError (Store × Deployment) := do
  let d ← a.toDeployment now
  let d := match store.getDeployment d.id with
    | some existing => { d with createdAt := existing.createdAt }
    | none => d
  return (store.putDeployment d, d)

end DeployArguments

/-! ## Previewing -/

namespace PreviewArguments

/-- The times that a schedule gives, as of the instant given or else `clock`. -/
def times (a : PreviewArguments) (r : ResolvedSettings) (clock : Instant) :
    Except CommandError (List Instant) := do
  match ← a.schedule.build with
  | none => .error .noRecurrence
  | some schedule =>
    let base ← r.bounds.mapError .span
    return schedule.evaluate (a.now.getD clock) (a.bounds.apply base)

/-- One time a line. -/
def text (times : List Instant) : String :=
  String.join (times.map fun t => t.toOffsetString ++ "\n")

end PreviewArguments

end RunScheduler
