import RunScheduler.Settings
import RunScheduler.Settings.Error
import RunScheduler.Text.Cut
import RunScheduler.Text.Decimal

/-!
# Settings from the environment

A variable sets the setting that its name has after a common beginning. Variables are taken in
order, so that the last of a name counts. A value that is no value of the setting ends it; what was
set before stays.
-/

namespace RunScheduler

open Text

namespace Setting

def variableBeginning : String := "FLOWGRID_"

/-- What the name of the variable of a setting has after the common beginning. -/
def variableEnding : Setting → String
  | .home => "HOME"
  | .loggingLevel => "LOGGING_LEVEL"
  | .loggingFormat => "LOGGING_FORMAT"
  | .storePath => "STORE_PATH"
  | .storeRetryAttempts => "STORE_RETRY_ATTEMPTS"
  | .storeRetryBaseDelay => "STORE_RETRY_BASE_DELAY_MS"
  | .schedulerEnabled => "SERVICES_SCHEDULER_ENABLED"
  | .schedulerLoop => "SERVICES_SCHEDULER_LOOP_SECONDS"
  | .schedulerDeploymentBatch => "SERVICES_SCHEDULER_DEPLOYMENT_BATCH_SIZE"
  | .schedulerInsertBatch => "SERVICES_SCHEDULER_INSERT_BATCH_SIZE"
  | .schedulerConcurrency => "SERVICES_SCHEDULER_MAX_CONCURRENCY"
  | .schedulerMinRuns => "SERVICES_SCHEDULER_MIN_RUNS"
  | .schedulerMaxRuns => "SERVICES_SCHEDULER_MAX_RUNS"
  | .schedulerMinAhead => "SERVICES_SCHEDULER_MIN_SCHEDULED_TIME_SECONDS"
  | .schedulerMaxAhead => "SERVICES_SCHEDULER_MAX_SCHEDULED_TIME_SECONDS"
  | .lateRunsEnabled => "SERVICES_LATE_RUNS_ENABLED"
  | .lateRunsLoop => "SERVICES_LATE_RUNS_LOOP_SECONDS"
  | .lateRunsAfter => "SERVICES_LATE_RUNS_AFTER_SECONDS"
  | .lateRunsBatch => "SERVICES_LATE_RUNS_BATCH_SIZE"
  | .pausesEnabled => "SERVICES_PAUSE_EXPIRATIONS_ENABLED"
  | .pausesLoop => "SERVICES_PAUSE_EXPIRATIONS_LOOP_SECONDS"
  | .pausesBatch => "SERVICES_PAUSE_EXPIRATIONS_BATCH_SIZE"
  | .cleanupEnabled => "SERVICES_CANCELLATION_CLEANUP_ENABLED"
  | .cleanupLoop => "SERVICES_CANCELLATION_CLEANUP_LOOP_SECONDS"
  | .cleanupBatch => "SERVICES_CANCELLATION_CLEANUP_BATCH_SIZE"
  | .cleanupLookback => "SERVICES_CANCELLATION_CLEANUP_LOOKBACK_SECONDS"

def variableName (s : Setting) : String :=
  variableBeginning ++ s.variableEnding

def ofVariable? (name : String) : Option Setting :=
  all.find? (·.variableName = name)

/-! ## Values -/

def readFlag (s : String) : Except String Bool :=
  let word := String.ofList ((trim s.toList).map Char.toLower)
  if ["1", "true", "yes", "on"].contains word then .ok true
  else if ["0", "false", "no", "off"].contains word then .ok false
  else .error ("expected a boolean, got \x60" ++ word ++ "\x60")

/-- A number up to `max`, with white space around it. -/
def readNumber (max : Nat) (s : String) : Except String Nat :=
  (readUpTo max (trim s.toList)).mapError NumberError.message

def Kind.read : (k : Kind) → String → Except String k.Value
  | .text, s => .ok s
  | .format, s => LogFormat.ofString s
  | .flag, s => readFlag s
  | .count, s => (readNumber 4294967295 s).map UInt32.ofNat
  | .number, s => (readNumber 18446744073709551615 s).map UInt64.ofNat

end Setting

namespace Settings

/-- The variables of an environment in which each is written as its name, an equals sign and its
value, and ended by a zero character. -/
def readEnvironment (environment : String) : List (String × String) :=
  (splitAt '\x00' environment.toList).filterMap fun entry =>
    (cutFirst '=' entry).map fun (name, value) => (String.ofList name, String.ofList value)

/-- What became of the variables. -/
structure Overridden where
  settings : Settings
  /-- The variables with the common beginning that name no setting, or the faulty one. -/
  outcome : Except SettingsError (List String)

/-- Applies one variable. -/
def applyVariable (s : Settings) (k : Setting) (name value : String) :
    Except SettingsError Settings :=
  match k.kind.read value with
  | .ok v => .ok (s.set k v)
  | .error reason => .error (.environment name value reason)

/-- Applies variables, each with its name and value, in order. Those without the common
beginning are passed over. -/
def applyEnvironment (s : Settings) : List (String × String) → Overridden
  | [] => ⟨s, .ok []⟩
  | (name, value) :: rest =>
    match Setting.ofVariable? name with
    | some k =>
      match s.applyVariable k name value with
      | .ok s => s.applyEnvironment rest
      | .error e => ⟨s, .error e⟩
    | none =>
      let o := s.applyEnvironment rest
      if name.startsWith Setting.variableBeginning then
        { o with outcome := o.outcome.map (name :: ·) }
      else o

end Settings

end RunScheduler
