import RunScheduler.Calendar
import RunScheduler.CommandLine
import RunScheduler.CommandLine.Action
import RunScheduler.CommandLine.Files
import RunScheduler.CommandLine.Options
import RunScheduler.Daemon
import RunScheduler.Deployment
import RunScheduler.Event
import RunScheduler.Housekeeping
import RunScheduler.Housekeeping.CancellationCleanup
import RunScheduler.Housekeeping.LateRuns
import RunScheduler.Housekeeping.PauseExpirations
import RunScheduler.Instant
import RunScheduler.Instant.Printer
import RunScheduler.Instant.Reader
import RunScheduler.Json
import RunScheduler.Json.DoubleRange
import RunScheduler.Json.Fields
import RunScheduler.Json.Printer
import RunScheduler.Json.Reader
import RunScheduler.LazyList
import RunScheduler.Lifecycle
import RunScheduler.Lifecycle.Error
import RunScheduler.Main
import RunScheduler.Materialization
import RunScheduler.Proofs.Instant
import RunScheduler.Proofs.Materialization.Course
import RunScheduler.Proofs.Materialization.Interleaving
import RunScheduler.Proofs.Materialization.Keys
import RunScheduler.Proofs.RunId
import RunScheduler.Proofs.Script
import RunScheduler.Proofs.Store.Answers
import RunScheduler.Proofs.Store.Change
import RunScheduler.Proofs.Store.Histories
import RunScheduler.Proofs.Store.Keys
import RunScheduler.Proofs.Store.Operation
import RunScheduler.Proofs.Store.Slots
import RunScheduler.Proofs.Store.Table
import RunScheduler.Proofs.Text
import RunScheduler.Recurrence.Cron
import RunScheduler.Recurrence.Cron.Reader
import RunScheduler.Recurrence.Interval
import RunScheduler.Recurrence.Rule
import RunScheduler.Recurrence.Rule.Reader
import RunScheduler.Retry
import RunScheduler.Run
import RunScheduler.Run.State
import RunScheduler.RunId
import RunScheduler.Schedule
import RunScheduler.Schedule.Evaluation
import RunScheduler.Schedule.Json
import RunScheduler.Scheduler
import RunScheduler.Script
import RunScheduler.Settings
import RunScheduler.Settings.Environment
import RunScheduler.Settings.Error
import RunScheduler.Settings.Resolution
import RunScheduler.Settings.Toml
import RunScheduler.Simulation.Execution
import RunScheduler.Simulation.Machine
import RunScheduler.Simulation.Process
import RunScheduler.Simulation.Tasks
import RunScheduler.Simulation.Trial
import RunScheduler.Simulation.World
import RunScheduler.Store
import RunScheduler.Store.Error
import RunScheduler.Store.Json
import RunScheduler.Store.Table
import RunScheduler.Text.Blank
import RunScheduler.Text.Cut
import RunScheduler.Text.Decimal
import RunScheduler.Text.Hexadecimal
import RunScheduler.Text.Quoted
import RunScheduler.Text.Unprintable
import RunScheduler.Toml
import RunScheduler.Toml.Printer
import RunScheduler.Toml.Quoted
import RunScheduler.Toml.Reader
import RunScheduler.Toml.Scalar
import RunScheduler.Toml.Table
import RunScheduler.Proofs.Store.SlotCounts
import RunScheduler.Proofs.Instant.Parts
import RunScheduler.Proofs.Recurrence.Period
import RunScheduler.Proofs.Recurrence.Expansion
import RunScheduler.Proofs.Recurrence.Cron
import RunScheduler.Proofs.Recurrence.Interval
import RunScheduler.Proofs.Schedule.Coverage
import RunScheduler.Proofs.Recurrence.Cron.Fields
import RunScheduler.Proofs.Recurrence.Cron.FiveFields
import RunScheduler.Proofs.Script.Protocol
import RunScheduler.Proofs.Store.Sharing
import RunScheduler.Proofs.Lifecycle.Course
import RunScheduler.Proofs.Lifecycle.Notices
import RunScheduler.Proofs.Store.Selection
import RunScheduler.Proofs.Housekeeping.Sweep
import RunScheduler.Proofs.Housekeeping.Completeness
import RunScheduler.Proofs.Housekeeping.Cleanup
import RunScheduler.Proofs.Housekeeping.Decisions
import RunScheduler.Proofs.Script.Ends
import RunScheduler.Proofs.Store.Catalog
import RunScheduler.Proofs.Scheduler.Rounds
import RunScheduler.Proofs.Scheduler.Paging
import RunScheduler.Proofs.Lifecycle.Hooks
import RunScheduler.Proofs.Schedule.Window
import RunScheduler.Proofs.Recurrence.Selection
import RunScheduler.Proofs.Instant.Reading
import RunScheduler.Proofs.Json.Reading
import RunScheduler.Proofs.Json.Records
import RunScheduler.Proofs.Store.Rows
import RunScheduler.Proofs.Recurrence.Gaps
import RunScheduler.Proofs.Recurrence.Cron.Order
import RunScheduler.Proofs.Schedule.Evaluation
import RunScheduler.Proofs.Store.Alone
import RunScheduler.Proofs.Store.Order
import RunScheduler.Proofs.Lifecycle.Alone
import RunScheduler.Proofs.Housekeeping.Attempts
import RunScheduler.Proofs.Housekeeping.Family
import RunScheduler.Proofs.Housekeeping.Descendants
import RunScheduler.Proofs.Housekeeping.CancelledRuns
import RunScheduler.Proofs.Schedule.Intervals
import RunScheduler.Proofs.Schedule.Widening
import RunScheduler.Proofs.Schedule.PlainRules
import RunScheduler.Proofs.Store.Planning
import RunScheduler.Proofs.Materialization.Resumption
import RunScheduler.Proofs.Text.Joined
import RunScheduler.Proofs.Instant.Compact
import RunScheduler.Proofs.Recurrence.Rule.Rendering
import RunScheduler.Proofs.Recurrence.Rule.Reading
import RunScheduler.Proofs.Recurrence.Iteration
import RunScheduler.Proofs.Schedule.Iteration
import RunScheduler.Proofs.Scheduler.Failures
import RunScheduler.Proofs.Settings.Environment
import RunScheduler.Proofs.Retry
import RunScheduler.Proofs.Schedule.LeapSeconds
import RunScheduler.Proofs.Housekeeping.Cutoffs
