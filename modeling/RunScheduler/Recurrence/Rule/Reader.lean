import RunScheduler.Instant.Reader
import RunScheduler.Recurrence.Rule

/-!
# Recurrence rules from text

A rule text has one line with the rule, `FREQ=WEEKLY;BYDAY=MO,WE;BYHOUR=9`, which may begin
with `RRULE:`, and may have lines `DTSTART:20240101T090000Z` with the start. Of a part given
twice the last one holds. Lists are sorted, and repetitions in them are dropped.
-/

namespace RunScheduler.Rule

open Text

/-! ## Errors -/

/-- Why a text is no rule. -/
inductive ReadError
  | startWithoutValue
  | startZone (zone : List Char)
  | secondRule
  | noRule
  | malformedPart (part : List Char)
  | frequency (value : List Char)
  | notANumber (key value : List Char)
  | outOfRange (key : List Char) (value least greatest : Nat)
  | weekday (value : List Char)
  | date (value : List Char)
  | unknownPart (key value : List Char)
  | noFrequency
  | countAndUntil
deriving DecidableEq, Repr

def ReadError.message : ReadError → String
  | .startWithoutValue => "DTSTART line has no value"
  | .startZone zone =>
    "DTSTART timezone '" ++ String.ofList zone ++ "' is not supported; use UTC"
  | .secondRule => "only a single RRULE is supported"
  | .noRule => "missing RRULE body"
  | .malformedPart part => "malformed RRULE part '" ++ String.ofList part ++ "'"
  | .frequency value => "unsupported RRULE frequency '" ++ String.ofList value ++ "'"
  | .notANumber key value =>
    String.ofList key ++ " value '" ++ String.ofList value ++ "' is not a number"
  | .outOfRange key value least greatest =>
    String.ofList key ++ " value " ++ String.ofList (natText value) ++ " is outside " ++
      String.ofList (natText least) ++ "..=" ++ String.ofList (natText greatest)
  | .weekday value => "unsupported BYDAY value '" ++ String.ofList value ++ "'"
  | .date value => "invalid RRULE date '" ++ String.ofList value ++ "'"
  | .unknownPart key value =>
    "unsupported RRULE part '" ++ String.ofList key ++ "=" ++ String.ofList value ++ "'"
  | .noFrequency => "RRULE is missing FREQ"
  | .countAndUntil => "RRULE may not specify both COUNT and UNTIL"

/-! ## Values -/

def upper (s : List Char) : List Char :=
  s.map Char.toUpper

def frequencies : List (String × Frequency) :=
  [("MINUTELY", .minutely), ("HOURLY", .hourly), ("DAILY", .daily), ("WEEKLY", .weekly),
   ("MONTHLY", .monthly)]

def weekdayCodes : List (String × Weekday) :=
  [("MO", .monday), ("TU", .tuesday), ("WE", .wednesday), ("TH", .thursday), ("FR", .friday),
   ("SA", .saturday), ("SU", .sunday)]

def readFrequency (value : List Char) : Except ReadError Frequency :=
  let name := upper (trim value)
  match frequencies.lookup (String.ofList name) with
  | some f => .ok f
  | none => .error (.frequency name)

def readWeekday (value : List Char) : Except ReadError Weekday :=
  let name := upper value
  match weekdayCodes.lookup (String.ofList name) with
  | some w => .ok w
  | none => .error (.weekday name)

/-- A number of 32 bits between two bounds. -/
def readNumber (key : String) (least greatest : Nat) (value : List Char) :
    Except ReadError Nat :=
  match readUpTo 4294967295 (trim value) with
  | .error _ => .error (.notANumber key.toList value)
  | .ok n =>
    if least ≤ n ∧ n ≤ greatest then .ok n
    else .error (.outOfRange key.toList n least greatest)

def readDate (value : List Char) : Except ReadError Instant :=
  match Instant.ofCompact? value with
  | some t => .ok t
  | none => .error (.date value)

/-- The items between commas, each trimmed and read. -/
def readList {α : Type} (read : List Char → Except ReadError α) (value : List Char) :
    Except ReadError (List α) :=
  ((splitAt ',' value).map trim).mapM read

/-- The members of `all` that are in the list, in the order of `all`. -/
def sortedIn {α : Type} [BEq α] (all l : List α) : List α :=
  all.filter l.contains

/-! ## Parts -/

/-- The parts read so far. -/
structure Draft where
  frequency : Option Frequency := none
  interval : Nat := 1
  count : Option Nat := none
  until? : Option Instant := none
  byDay : List Weekday := []
  byMonthDay : List Nat := []
  byHour : List Nat := []
  byMinute : List Nat := []
  interval_pos : 0 < interval := by decide

def maxInterval : Nat := 100000

/-- Takes one part into the draft. Weeks begin on Monday, which a part may say. -/
def Draft.add (d : Draft) (part : List Char) : Except ReadError Draft :=
  match cutFirst '=' part with
  | none => .error (.malformedPart part)
  | some (key, value) =>
    let key := upper (trim key)
    match String.ofList key with
    | "FREQ" => do return { d with frequency := some (← readFrequency value) }
    | "INTERVAL" => do
      let n ← readNumber "INTERVAL" 1 maxInterval value
      if h : 0 < n then return { d with interval := n, interval_pos := h }
      else .error (.outOfRange key n 1 maxInterval)
    | "COUNT" => do return { d with count := some (← readNumber "COUNT" 1 4294967295 value) }
    | "UNTIL" => do return { d with until? := some (← readDate value) }
    | "BYDAY" => do return { d with byDay := ← readList readWeekday value }
    | "BYMONTHDAY" => do
      return { d with byMonthDay := ← readList (readNumber "BYMONTHDAY" 1 31) value }
    | "BYHOUR" => do return { d with byHour := ← readList (readNumber "BYHOUR" 0 23) value }
    | "BYMINUTE" => do return { d with byMinute := ← readList (readNumber "BYMINUTE" 0 59) value }
    | "WKST" =>
      if upper (trim value) = ['M', 'O'] then .ok d else .error (.unknownPart key value)
    | _ => .error (.unknownPart key value)

/-- The rule of a draft with everything a rule needs. -/
def Draft.finish (d : Draft) (start : Option Instant) : Except ReadError Rule :=
  match d.frequency with
  | none => .error .noFrequency
  | some frequency =>
    if d.count.isSome ∧ d.until?.isSome then .error .countAndUntil
    else
      .ok {
        frequency
        interval := d.interval
        count := d.count
        until? := d.until?
        byDay := sortedIn Weekday.all d.byDay
        byMonthDay := sortedIn (List.range' 1 31) d.byMonthDay
        byHour := sortedIn (List.range 24) d.byHour
        byMinute := sortedIn (List.range 60) d.byMinute
        start? := start
        interval_pos := d.interval_pos }

def readParts (d : Draft) : List (List Char) → Except ReadError Draft
  | [] => .ok d
  | part :: parts => do readParts (← d.add part) parts

/-- The pieces between the places of `sep`, trimmed, without empty ones. -/
def pieces (sep : Char) (s : List Char) : List (List Char) :=
  ((splitAt sep s).map trim).filter (!·.isEmpty)

/-! ## Lines -/

/-- What the lines of a text gave so far: the last start and the one rule. -/
structure Lines where
  start : Option Instant := none
  rule : Option (List Char) := none

/-- The start of a line that begins with `DTSTART`, after that word. The zone may only be UTC. -/
def readStart (rest : List Char) : Except ReadError Instant :=
  match cutLast ':' rest with
  | none => .error .startWithoutValue
  | some (params, value) =>
    match (splitAt ';' params).findSome? (after? "TZID=".toList) with
    | some zone =>
      if upper zone = "UTC".toList then readDate value else .error (.startZone zone)
    | none => readDate value

def Lines.add (l : Lines) (line : List Char) : Except ReadError Lines :=
  match after? "DTSTART".toList line with
  | some rest => do return { l with start := some (← readStart rest) }
  | none =>
    match l.rule with
    | some _ => .error .secondRule
    | none => .ok { l with rule := some ((after? "RRULE:".toList line).getD line) }

def readLines (l : Lines) : List (List Char) → Except ReadError Lines
  | [] => .ok l
  | line :: lines => do readLines (← l.add line) lines

/-- Reads a rule. -/
def ofText (text : List Char) : Except ReadError Rule := do
  let lines ← readLines {} (pieces '\n' text)
  match lines.rule with
  | none => .error .noRule
  | some rule => do
    let draft ← readParts {} (pieces ';' rule)
    draft.finish lines.start

end RunScheduler.Rule
