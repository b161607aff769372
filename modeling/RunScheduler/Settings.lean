import RunScheduler.Json

/-!
# Settings

What the program can be told about where it keeps things and how its services work. Every single
setting has a place in the settings, given by the names of the tables it lies in and its own.
Main facts: a setting reads what was written to it, and writing to one leaves the others alone.
-/

namespace RunScheduler

/-- How log lines are written. -/
inductive LogFormat
  | text | json
deriving DecidableEq, Repr

namespace LogFormat

def name : LogFormat → String
  | .text => "text"
  | .json => "json"

/-- The format of a name as it is. -/
def ofName? (s : String) : Option LogFormat :=
  [text, json].find? (·.name = s)

/-- The format of a name in any letter case. -/
def ofString (s : String) : Except String LogFormat :=
  let lower := String.ofList (s.toList.map Char.toLower)
  match ofName? lower with
  | some f => .ok f
  | none => .error ("unknown log format \x60" ++ lower ++ "\x60, expected text or json")

end LogFormat

structure LoggingSettings where
  level : String := "info"
  format : LogFormat := .text
deriving DecidableEq, Repr

/-- Stands for the base directory in the path of the store. -/
def homeMark : String := "$\x7bhome\x7d"

structure StoreSettings where
  path : String := homeMark ++ "/flowgrid.redb"
  retryAttempts : UInt32 := 3
  /-- Milliseconds. -/
  retryBaseDelay : UInt64 := 100
deriving DecidableEq, Repr

structure SchedulerSettings where
  enabled : Bool := true
  loopSeconds : UInt64 := 60
  deploymentBatchSize : UInt64 := 100
  insertBatchSize : UInt64 := 500
  maxConcurrency : UInt64 := 10
  minRuns : UInt64 := 3
  maxRuns : UInt64 := 100
  minAheadSeconds : UInt64 := 3600
  maxAheadSeconds : UInt64 := 8640000
deriving DecidableEq, Repr

structure LateRunsSettings where
  enabled : Bool := true
  loopSeconds : UInt64 := 5
  afterSeconds : UInt64 := 15
  batchSize : UInt64 := 400
deriving DecidableEq, Repr

structure PauseExpirationsSettings where
  enabled : Bool := true
  loopSeconds : UInt64 := 5
  batchSize : UInt64 := 200
deriving DecidableEq, Repr

structure CancellationCleanupSettings where
  enabled : Bool := true
  loopSeconds : UInt64 := 20
  batchSize : UInt64 := 200
  lookbackSeconds : UInt64 := 86400
deriving DecidableEq, Repr

structure Settings where
  /-- The base directory. -/
  home : String := "~/.flowgrid"
  logging : LoggingSettings := {}
  store : StoreSettings := {}
  scheduler : SchedulerSettings := {}
  lateRuns : LateRunsSettings := {}
  pauseExpirations : PauseExpirationsSettings := {}
  cancellationCleanup : CancellationCleanupSettings := {}
deriving DecidableEq, Repr

/-! ## Single settings -/

inductive Setting
  | home
  | loggingLevel | loggingFormat
  | storePath | storeRetryAttempts | storeRetryBaseDelay
  | schedulerEnabled | schedulerLoop | schedulerDeploymentBatch | schedulerInsertBatch
  | schedulerConcurrency | schedulerMinRuns | schedulerMaxRuns | schedulerMinAhead
  | schedulerMaxAhead
  | lateRunsEnabled | lateRunsLoop | lateRunsAfter | lateRunsBatch
  | pausesEnabled | pausesLoop | pausesBatch
  | cleanupEnabled | cleanupLoop | cleanupBatch | cleanupLookback
deriving DecidableEq, Repr

namespace Setting

def all : List Setting :=
  [.home, .loggingLevel, .loggingFormat, .storePath, .storeRetryAttempts, .storeRetryBaseDelay,
   .schedulerEnabled, .schedulerLoop, .schedulerDeploymentBatch, .schedulerInsertBatch,
   .schedulerConcurrency, .schedulerMinRuns, .schedulerMaxRuns, .schedulerMinAhead,
   .schedulerMaxAhead, .lateRunsEnabled, .lateRunsLoop, .lateRunsAfter, .lateRunsBatch,
   .pausesEnabled, .pausesLoop, .pausesBatch, .cleanupEnabled, .cleanupLoop, .cleanupBatch,
   .cleanupLookback]

/-- The tables a setting lies in, from the outermost. -/
def tables : Setting → List String
  | .home => []
  | .loggingLevel | .loggingFormat => ["logging"]
  | .storePath | .storeRetryAttempts | .storeRetryBaseDelay => ["store"]
  | .schedulerEnabled | .schedulerLoop | .schedulerDeploymentBatch | .schedulerInsertBatch
  | .schedulerConcurrency | .schedulerMinRuns | .schedulerMaxRuns | .schedulerMinAhead
  | .schedulerMaxAhead => ["services", "scheduler"]
  | .lateRunsEnabled | .lateRunsLoop | .lateRunsAfter | .lateRunsBatch =>
    ["services", "late_runs"]
  | .pausesEnabled | .pausesLoop | .pausesBatch => ["services", "pause_expirations"]
  | .cleanupEnabled | .cleanupLoop | .cleanupBatch | .cleanupLookback =>
    ["services", "cancellation_cleanup"]

/-- The name of a setting in its table. -/
def key : Setting → String
  | .home => "home"
  | .loggingLevel => "level"
  | .loggingFormat => "format"
  | .storePath => "path"
  | .storeRetryAttempts => "retry_attempts"
  | .storeRetryBaseDelay => "retry_base_delay_ms"
  | .schedulerEnabled | .lateRunsEnabled | .pausesEnabled | .cleanupEnabled => "enabled"
  | .schedulerLoop | .lateRunsLoop | .pausesLoop | .cleanupLoop => "loop_seconds"
  | .schedulerDeploymentBatch => "deployment_batch_size"
  | .schedulerInsertBatch => "insert_batch_size"
  | .schedulerConcurrency => "max_concurrency"
  | .schedulerMinRuns => "min_runs"
  | .schedulerMaxRuns => "max_runs"
  | .schedulerMinAhead => "min_scheduled_time_seconds"
  | .schedulerMaxAhead => "max_scheduled_time_seconds"
  | .lateRunsAfter => "after_seconds"
  | .lateRunsBatch | .pausesBatch | .cleanupBatch => "batch_size"
  | .cleanupLookback => "lookback_seconds"

/-- The name with those of its tables, and points between them. -/
def dottedName (s : Setting) : String :=
  ".".intercalate (s.tables ++ [s.key])

/-- What kind of value a setting has. -/
inductive Kind
  | text | format | flag
  /-- A number of 32 bits. -/
  | count
  /-- A number of 64 bits. -/
  | number
deriving DecidableEq, Repr

def Kind.Value : Kind → Type
  | .text => String
  | .format => LogFormat
  | .flag => Bool
  | .count => UInt32
  | .number => UInt64

def kind : Setting → Kind
  | .home | .loggingLevel | .storePath => .text
  | .loggingFormat => .format
  | .storeRetryAttempts => .count
  | .schedulerEnabled | .lateRunsEnabled | .pausesEnabled | .cleanupEnabled => .flag
  | _ => .number

theorem mem_all (s : Setting) : s ∈ all := by
  cases s <;> decide

end Setting

namespace Settings

/-- The value of a setting. -/
def get (s : Settings) : (k : Setting) → k.kind.Value
  | .home => s.home
  | .loggingLevel => s.logging.level
  | .loggingFormat => s.logging.format
  | .storePath => s.store.path
  | .storeRetryAttempts => s.store.retryAttempts
  | .storeRetryBaseDelay => s.store.retryBaseDelay
  | .schedulerEnabled => s.scheduler.enabled
  | .schedulerLoop => s.scheduler.loopSeconds
  | .schedulerDeploymentBatch => s.scheduler.deploymentBatchSize
  | .schedulerInsertBatch => s.scheduler.insertBatchSize
  | .schedulerConcurrency => s.scheduler.maxConcurrency
  | .schedulerMinRuns => s.scheduler.minRuns
  | .schedulerMaxRuns => s.scheduler.maxRuns
  | .schedulerMinAhead => s.scheduler.minAheadSeconds
  | .schedulerMaxAhead => s.scheduler.maxAheadSeconds
  | .lateRunsEnabled => s.lateRuns.enabled
  | .lateRunsLoop => s.lateRuns.loopSeconds
  | .lateRunsAfter => s.lateRuns.afterSeconds
  | .lateRunsBatch => s.lateRuns.batchSize
  | .pausesEnabled => s.pauseExpirations.enabled
  | .pausesLoop => s.pauseExpirations.loopSeconds
  | .pausesBatch => s.pauseExpirations.batchSize
  | .cleanupEnabled => s.cancellationCleanup.enabled
  | .cleanupLoop => s.cancellationCleanup.loopSeconds
  | .cleanupBatch => s.cancellationCleanup.batchSize
  | .cleanupLookback => s.cancellationCleanup.lookbackSeconds

/-- The settings with another value of one. -/
def set (s : Settings) : (k : Setting) → k.kind.Value → Settings
  | .home, v => { s with home := v }
  | .loggingLevel, v => { s with logging.level := v }
  | .loggingFormat, v => { s with logging.format := v }
  | .storePath, v => { s with store.path := v }
  | .storeRetryAttempts, v => { s with store.retryAttempts := v }
  | .storeRetryBaseDelay, v => { s with store.retryBaseDelay := v }
  | .schedulerEnabled, v => { s with scheduler.enabled := v }
  | .schedulerLoop, v => { s with scheduler.loopSeconds := v }
  | .schedulerDeploymentBatch, v => { s with scheduler.deploymentBatchSize := v }
  | .schedulerInsertBatch, v => { s with scheduler.insertBatchSize := v }
  | .schedulerConcurrency, v => { s with scheduler.maxConcurrency := v }
  | .schedulerMinRuns, v => { s with scheduler.minRuns := v }
  | .schedulerMaxRuns, v => { s with scheduler.maxRuns := v }
  | .schedulerMinAhead, v => { s with scheduler.minAheadSeconds := v }
  | .schedulerMaxAhead, v => { s with scheduler.maxAheadSeconds := v }
  | .lateRunsEnabled, v => { s with lateRuns.enabled := v }
  | .lateRunsLoop, v => { s with lateRuns.loopSeconds := v }
  | .lateRunsAfter, v => { s with lateRuns.afterSeconds := v }
  | .lateRunsBatch, v => { s with lateRuns.batchSize := v }
  | .pausesEnabled, v => { s with pauseExpirations.enabled := v }
  | .pausesLoop, v => { s with pauseExpirations.loopSeconds := v }
  | .pausesBatch, v => { s with pauseExpirations.batchSize := v }
  | .cleanupEnabled, v => { s with cancellationCleanup.enabled := v }
  | .cleanupLoop, v => { s with cancellationCleanup.loopSeconds := v }
  | .cleanupBatch, v => { s with cancellationCleanup.batchSize := v }
  | .cleanupLookback, v => { s with cancellationCleanup.lookbackSeconds := v }

theorem get_set_self (s : Settings) (k : Setting) (v : k.kind.Value) : (s.set k v).get k = v := by
  cases k <;> rfl

theorem get_set_of_ne (s : Settings) {k l : Setting} (v : k.kind.Value) (h : l ≠ k) :
    (s.set k v).get l = s.get l := by
  cases k <;> cases l <;> trivial

/-! ## As JSON -/

def valueJson : (k : Setting.Kind) → k.Value → Json
  | .text, v => .string v
  | .format, v => .string (LogFormat.name v)
  | .flag, v => .bool v
  | .count, v => Json.ofNat (UInt32.toNat v)
  | .number, v => Json.ofNat (UInt64.toNat v)

/-- The settings of one table, in order. -/
def tableJson (s : Settings) (tables : List String) : Json :=
  .object ((Setting.all.filter (·.tables = tables)).map fun k =>
    (k.key, valueJson k.kind (s.get k)))

/-- The names of the services, which are tables in the table of services. -/
def serviceNames : List String :=
  ["scheduler", "late_runs", "pause_expirations", "cancellation_cleanup"]

def servicesJson (s : Settings) : Json :=
  .object (serviceNames.map fun name => (name, s.tableJson ["services", name]))

def toJson (s : Settings) : Json :=
  .object [("home", .string s.home), ("logging", s.tableJson ["logging"]),
    ("store", s.tableJson ["store"]), ("services", s.servicesJson)]

end Settings

end RunScheduler
