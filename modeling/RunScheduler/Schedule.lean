import RunScheduler.Instant.Printer
import RunScheduler.Recurrence.Cron.Reader
import RunScheduler.Recurrence.Interval
import RunScheduler.Recurrence.Rule.Reader

/-!
# Schedules

A definition says how runs recur, and between which two instants. A schedule is a definition
together with the timing it compiles to; a definition that compiles to none is invalid, and the
error says why.
-/

namespace RunScheduler

/-! ## Definitions -/

/-- How runs recur. -/
inductive Recurrence
  /-- Every so many seconds, counted from an anchor or else from the start of 1970. -/
  | interval (everySeconds : UInt64) (anchor : Option Instant)
  | cron (expression : String)
  | rrule (rule : String)
deriving DecidableEq

namespace Schedule

/-- A schedule as it is stored, not yet checked. -/
structure Definition where
  recurrence : Recurrence
  /-- No occurrence is earlier. -/
  start : Option Instant := none
  /-- No occurrence is later. -/
  stop : Option Instant := none
deriving DecidableEq

/-- Why a definition is no schedule. -/
inductive Error
  | stopBeforeStart (stop start : Instant)
  | interval (everySeconds : UInt64)
  | cron (expression : String)
  | rule (e : Rule.ReadError)
  | countWithoutStart
deriving DecidableEq

/-- The longest interval: a hundred years of 366 days. -/
def maxInterval : Nat := 3162240000

def Error.cause : Error → String
  | .stopBeforeStart stop start =>
    "end " ++ stop.toMessageString ++ " is before start " ++ start.toMessageString
  | .interval everySeconds =>
    "interval must be between 1 and " ++ String.ofList (Text.natText maxInterval) ++
      " seconds, got " ++ String.ofList (Text.natText everySeconds.toNat)
  | .cron expression =>
    "invalid cron expression '" ++ expression ++
      "': Invalid expression: Invalid cron expression."
  | .rule e => e.message
  | .countWithoutStart => "RRULE with COUNT requires DTSTART or a schedule start"

def Error.message (e : Error) : String :=
  "invalid schedule: " ++ e.cause

/-! ## Compilation -/

/-- What gives the occurrences of a schedule. -/
inductive Timing
  | interval (i : Interval)
  | cron (p : Cron.Pattern)
  | rule (r : Rule) (start : Instant)

/-- The start of a rule: its own, or else the schedule's, or else the start of 1970, which is
refused to a rule that counts. -/
def ruleStart (r : Rule) (start : Option Instant) : Except Error Instant :=
  match r.start?, start with
  | some t, _ => .ok t
  | none, some t => .ok t
  | none, none => if r.count.isSome then .error .countWithoutStart else .ok Instant.epoch

def compileRecurrence (start : Option Instant) : Recurrence → Except Error Timing
  | .interval everySeconds anchor =>
    if h : 0 < everySeconds.toNat ∧ everySeconds.toNat ≤ maxInterval then
      .ok (.interval ⟨anchor.getD Instant.epoch, everySeconds.toNat, h.1⟩)
    else .error (.interval everySeconds)
  | .cron expression =>
    match Cron.ofText? expression.toList with
    | some p => .ok (.cron p)
    | none => .error (.cron expression)
  | .rrule rule =>
    match Rule.ofText rule.toList with
    | .error e => .error (.rule e)
    | .ok r =>
      match ruleStart r start with
      | .error e => .error e
      | .ok t => .ok (.rule r t)

/-- The timing of a definition. -/
def Definition.compile (d : Definition) : Except Error Timing :=
  match d.start, d.stop with
  | some start, some stop =>
    if stop < start then .error (.stopBeforeStart stop start)
    else compileRecurrence d.start d.recurrence
  | _, _ => compileRecurrence d.start d.recurrence

end Schedule

/-- A valid schedule. -/
structure Schedule where
  definition : Schedule.Definition
  timing : Schedule.Timing
  compiled : definition.compile = .ok timing

namespace Schedule

/-- The schedule of a definition, if it is valid. -/
def ofDefinition (d : Definition) : Except Error Schedule :=
  match h : d.compile with
  | .ok timing => .ok ⟨d, timing, h⟩
  | .error e => .error e

/-- A schedule is determined by its definition. -/
theorem eq_of_definition_eq {s t : Schedule} (h : s.definition = t.definition) : s = t := by
  obtain ⟨d, timing, hs⟩ := s
  obtain ⟨_, timing', ht⟩ := t
  subst h
  have : timing = timing' := by simpa [hs] using ht
  subst this
  rfl

instance : DecidableEq Schedule := fun s t =>
  if h : s.definition = t.definition then isTrue (eq_of_definition_eq h)
  else isFalse fun e => h (e ▸ rfl)

theorem ofDefinition_definition (s : Schedule) : ofDefinition s.definition = .ok s := by
  obtain ⟨d, timing, h⟩ := s
  unfold ofDefinition
  split
  · rename_i t ht
    exact congrArg _ (eq_of_definition_eq rfl)
  · rename_i e he
    simp [h] at he

def start (s : Schedule) : Option Instant := s.definition.start

def stop (s : Schedule) : Option Instant := s.definition.stop

/-- One line for people to read. -/
def describe (s : Schedule) : String :=
  match s.definition.recurrence with
  | .interval everySeconds _ => "every " ++ String.ofList (Text.natText everySeconds.toNat) ++ "s"
  | .cron expression => "cron '" ++ expression ++ "'"
  | .rrule rule =>
    "rrule '" ++ String.ofList (rule.toList.map fun c => if c = '\n' then ' ' else c) ++ "'"

/-! ## Occurrences -/

/-- The occurrences of the timing later than `after`, those before a start not yet all left out.
A cron search before its start begins one second ahead of the start, which it may yield. In the
first second of the calendar that search cannot begin. Whoever asked for its times fails then, which
is left out here: there are no occurrences instead. -/
def Timing.occurrences (timing : Timing) (start : Option Instant) (after : Instant) :
    LazyList Instant :=
  match timing with
  | .interval i => i.occurrences after start
  | .cron p =>
    match start with
    | none => p.occurrences after
    | some start =>
      if after < start then
        match start.addSeconds? (-1) with
        | none => .nil
        | some before => p.occurrences before
      else p.occurrences after
  | .rule r first => r.occurrences first after

def notBefore (bound : Option Instant) (t : Instant) : Bool :=
  match bound with
  | none => true
  | some bound => decide (bound ≤ t)

def notAfter (bound : Option Instant) (t : Instant) : Bool :=
  match bound with
  | none => true
  | some bound => decide (t ≤ bound)

/-- The occurrences later than `after`, from the start to the stop of the schedule. -/
def occurrences (s : Schedule) (after : Instant) : LazyList Instant :=
  ((s.timing.occurrences s.start after).filter
    fun t => decide (after < t) && notBefore s.start t).takeWhile (notAfter s.stop)

end Schedule

end RunScheduler
