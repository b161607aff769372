import RunScheduler.Recurrence.Cron
import RunScheduler.Text.Blank
import RunScheduler.Text.Cut
import RunScheduler.Text.Decimal

/-!
# Cron expressions

An expression has six fields (seconds, minutes, hours, day of month, month, weekday), a seventh
for years if wanted, or is a word such as `@daily`. Five fields separated by white space get
second 0 in front. A field is a list of items with commas; an item is a specifier, a specifier
with a step, or a name. Every item takes the white space around its numbers and names with it,
so fields need no space between them where an item cannot go on.

A reader takes the text and returns what it read with the rest of the text.
-/

namespace RunScheduler.Cron

open Text

/-! ## Items -/

/-- What an item covers before a step is taken. -/
inductive Specifier
  | all
  | point (n : Nat)
  | range (first last : Nat)
  | namedRange (first last : List Char)
deriving DecidableEq, Repr

inductive Term
  | plain (s : Specifier)
  | stepped (s : Specifier) (step : Nat)
  | named (name : List Char)
deriving DecidableEq, Repr

/-- Space, tab, carriage return and line feed. -/
def isGap (c : Char) : Bool :=
  c == ' ' || c == '\t' || c == '\r' || c == '\n'

def skipGap (s : List Char) : List Char :=
  s.dropWhile isGap

/-- A number below 2³² with the gaps around it. -/
def readOrdinal (s : List Char) : Option (Nat × List Char) :=
  let s := skipGap s
  let digits := s.takeWhile isDigit
  if digits.isEmpty ∨ 4294967295 < digitsValue digits then none
  else some (digitsValue digits, skipGap (s.drop digits.length))

/-- ASCII letters with the gaps around them. -/
def readName (s : List Char) : Option (List Char × List Char) :=
  let s := skipGap s
  let letters := s.takeWhile Char.isAlpha
  if letters.isEmpty then none else some (letters, skipGap (s.drop letters.length))

/-- A star, a range, a number or a range of names. A question mark stands for a star where
`any` allows it. -/
def readSpecifier (any : Bool) (s : List Char) : Option (Specifier × List Char) :=
  match s with
  | '*' :: rest => some (.all, rest)
  | '?' :: rest => if any then some (.all, rest) else none
  | _ =>
    match readOrdinal s with
    | some (first, rest) =>
      match rest with
      | '-' :: rest' =>
        match readOrdinal rest' with
        | some (last, rest'') => some (.range first last, rest'')
        | none => some (.point first, rest)
      | _ => some (.point first, rest)
    | none =>
      match readName s with
      | some (first, '-' :: rest) =>
        (readName rest).map fun (last, rest) => (.namedRange first last, rest)
      | _ => none

def readTerm (any : Bool) (s : List Char) : Option (Term × List Char) :=
  match readSpecifier any s with
  | some (spec, rest) =>
    match rest with
    | '/' :: rest' =>
      match readOrdinal rest' with
      | some (step, rest'') => some (.stepped spec step, rest'')
      | none => some (.plain spec, rest)
    | _ => some (.plain spec, rest)
  | none => (readName s).map fun (name, rest) => (.named name, rest)

/-- Further items, each after a comma. A comma that no item follows is left. The first
argument bounds the number of items. -/
def readTerms (any : Bool) : Nat → List Char → List Term × List Char
  | 0, s => ([], s)
  | fuel + 1, ',' :: rest =>
    match readTerm any rest with
    | some (term, rest) =>
      let (terms, rest) := readTerms any fuel rest
      (term :: terms, rest)
    | none => ([], ',' :: rest)
  | _ + 1, s => ([], s)

/-- The items of one field. -/
def readFieldTerms (any : Bool) (s : List Char) : Option (List Term × List Char) :=
  match readTerm any (skipGap s) with
  | none => none
  | some (term, rest) =>
    let (terms, rest) := readTerms any rest.length rest
    some (term :: terms, skipGap rest)

/-! ## The numbers of a field -/

def monthNames : List (String × Nat) :=
  [("jan", 1), ("january", 1), ("feb", 2), ("february", 2), ("mar", 3), ("march", 3),
   ("apr", 4), ("april", 4), ("may", 5), ("jun", 6), ("june", 6), ("jul", 7), ("july", 7),
   ("aug", 8), ("august", 8), ("sep", 9), ("september", 9), ("oct", 10), ("october", 10),
   ("nov", 11), ("november", 11), ("dec", 12), ("december", 12)]

def weekdayNames : List (String × Nat) :=
  [("sun", 1), ("sunday", 1), ("mon", 2), ("monday", 2), ("tue", 3), ("tues", 3),
   ("tuesday", 3), ("wed", 4), ("wednesday", 4), ("thu", 5), ("thurs", 5), ("thursday", 5),
   ("fri", 6), ("friday", 6), ("sat", 7), ("saturday", 7)]

/-- The number a name stands for. Only months and weekdays have names. -/
def Field.ofName? (f : Field) (name : List Char) : Option Nat :=
  let lower := String.ofList (name.map Char.toLower)
  match f with
  | .months => monthNames.lookup lower
  | .daysOfWeek => weekdayNames.lookup lower
  | _ => none

def Field.hasNumber (f : Field) (n : Nat) : Bool :=
  f.least ≤ n && n ≤ f.greatest

/-- The numbers from one bound to another, if both are the field's and in order. -/
def Field.range? (f : Field) (first last : Nat) : Option (List Nat) :=
  if f.hasNumber first && f.hasNumber last && first ≤ last then
    some (List.range' first (last + 1 - first))
  else none

def Field.numbersOf? (f : Field) : Specifier → Option (List Nat)
  | .all => some f.all
  | .point n => if f.hasNumber n then some [n] else none
  | .range first last => f.range? first last
  | .namedRange first last =>
    match f.ofName? first, f.ofName? last with
    | some first, some last => f.range? first last
    | _, _ => none

/-- The first of a list, and every `step`-th after it. -/
def everyNth (step : Nat) (l : List Nat) : List Nat :=
  (l.zipIdx.filter fun (_, i) => i % step == 0).map (·.1)

/-- The numbers of an item. A number with a step begins a range up to the greatest number. -/
def Field.termNumbers? (f : Field) : Term → Option (List Nat)
  | .plain spec => f.numbersOf? spec
  | .stepped spec step =>
    if step = 0 then none
    else
      match spec with
      | .point n => (f.range? n f.greatest).map (everyNth step)
      | spec => (f.numbersOf? spec).map (everyNth step)
  | .named name => (f.ofName? name).map fun n => [n]

/-- The numbers of a field, ascending and each once. -/
def Field.numbers? (f : Field) (terms : List Term) : Option (List Nat) :=
  (terms.mapM f.termNumbers?).map fun sets => f.all.filter fun n => sets.any (·.contains n)

def readField (f : Field) (s : List Char) : Option (List Nat × List Char) :=
  match readFieldTerms (f == .daysOfMonth || f == .daysOfWeek) s with
  | none => none
  | some (terms, rest) => (f.numbers? terms).map fun numbers => (numbers, rest)

/-! ## Expressions -/

def Pattern.daily : Pattern :=
  ⟨[0], [0], [0], Field.daysOfMonth.all, Field.months.all, Field.daysOfWeek.all, Field.years.all⟩

def Pattern.weekly : Pattern := { Pattern.daily with daysOfWeek := [1] }

def Pattern.monthly : Pattern := { Pattern.daily with daysOfMonth := [1] }

def Pattern.yearly : Pattern := { Pattern.monthly with months := [1] }

def Pattern.hourly : Pattern := { Pattern.daily with hours := Field.hours.all }

def wordPatterns : List (String × Pattern) :=
  [("@yearly", .yearly), ("@monthly", .monthly), ("@weekly", .weekly), ("@daily", .daily),
   ("@hourly", .hourly)]

/-- A word with gaps around it and nothing else. -/
def readWord (s : List Char) : Option Pattern :=
  let s := skipGap s
  wordPatterns.findSome? fun (word, pattern) =>
    match after? word.toList s with
    | some rest => if (skipGap rest).isEmpty then some pattern else none
    | none => none

/-- Six or seven fields and nothing else. -/
def readFields (s : List Char) : Option Pattern := do
  let (seconds, s) ← readField .seconds s
  let (minutes, s) ← readField .minutes s
  let (hours, s) ← readField .hours s
  let (daysOfMonth, s) ← readField .daysOfMonth s
  let (months, s) ← readField .months s
  let (daysOfWeek, s) ← readField .daysOfWeek s
  match s with
  | [] => some { seconds, minutes, hours, daysOfMonth, months, daysOfWeek }
  | s =>
    match readField .years s with
    | some (years, []) =>
      some { seconds, minutes, hours, daysOfMonth, months, daysOfWeek, years }
    | _ => none

/-- Five words get second 0 in front and single spaces between them; any other text is only
trimmed. -/
def normalize (s : List Char) : List Char :=
  let fields := words s
  if fields.length = 5 then '0' :: ' ' :: joinWith [' '] fields else trim s

/-- Reads an expression. -/
def ofText? (s : List Char) : Option Pattern :=
  let s := normalize s
  match readWord s with
  | some pattern => some pattern
  | none => readFields s

end RunScheduler.Cron
