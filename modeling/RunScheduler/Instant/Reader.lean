import RunScheduler.Instant
import RunScheduler.Text.Cut
import RunScheduler.Text.Decimal

/-!
# Instants from text

A form of instants is a list of items, and one function reads them all: numbers with a greatest
width, single characters, white space, a fraction. Two forms are in use: relaxed RFC 3339 with
an offset, and the compact form of recurrence rules, which is in UTC.
-/

namespace RunScheduler.Instant

open Text

/-! ## Forms -/

inductive Item
  /-- Four digits, or a sign and any number of digits. -/
  | year
  | month
  | day
  | hour
  | minute
  | second
  /-- Nothing, or a point and digits, of which nine count. -/
  | fraction
  /-- Any amount of white space. -/
  | blank
  | char (c : Char)

/-- The parts of an instant as they were read, not yet checked against each other. -/
structure Parts where
  year : Int := 0
  month : Nat := 1
  day : Nat := 1
  hour : Nat := 0
  minute : Nat := 0
  second : Nat := 0
  nano : Nat := 0

/-- A year: a sign lets it have any number of digits. -/
def readYear (s : List Char) : Option (Int × List Char) :=
  match s with
  | '-' :: rest => (takeNumber rest.length rest).map fun (n, r) => (-(n : Int), r)
  | '+' :: rest => (takeNumber rest.length rest).map fun (n, r) => ((n : Int), r)
  | _ => (takeNumber 4 s).map fun (n, r) => ((n : Int), r)

/-- The nanoseconds that a run of digits after a point stands for. -/
def fractionNanos (digits : List Char) : Nat :=
  digitsValue ((digits.take 9).rightpad 9 '0')

def readFraction (s : List Char) : Option (Nat × List Char) :=
  match s with
  | '.' :: rest =>
    let digits := rest.takeWhile isDigit
    if digits.isEmpty then none else some (fractionNanos digits, rest.dropWhile isDigit)
  | _ => some (0, s)

/-- Reads one item. White space may stand before a number. -/
def readItem (parts : Parts) (s : List Char) : Item → Option (Parts × List Char)
  | .year => (readYear (trimStart s)).map fun (n, r) => ({ parts with year := n }, r)
  | .month => (takeNumber 2 (trimStart s)).map fun (n, r) => ({ parts with month := n }, r)
  | .day => (takeNumber 2 (trimStart s)).map fun (n, r) => ({ parts with day := n }, r)
  | .hour => (takeNumber 2 (trimStart s)).map fun (n, r) => ({ parts with hour := n }, r)
  | .minute => (takeNumber 2 (trimStart s)).map fun (n, r) => ({ parts with minute := n }, r)
  | .second => (takeNumber 2 (trimStart s)).map fun (n, r) => ({ parts with second := n }, r)
  | .fraction => (readFraction s).map fun (n, r) => ({ parts with nano := n }, r)
  | .blank => some (parts, trimStart s)
  | .char c => (after? [c] s).map fun r => (parts, r)

def readItems (parts : Parts) (s : List Char) : List Item → Option (Parts × List Char)
  | [] => some (parts, s)
  | item :: items =>
    match readItem parts s item with
    | none => none
    | some (parts, s) => readItems parts s items

/-- The instant with these parts in a zone so many seconds ahead of UTC. Second 60 is the leap
second after second 59. -/
def Parts.toInstant? (p : Parts) (offset : Int) : Option Instant :=
  match Calendar.dayNumber? p.year p.month p.day with
  | none => none
  | some day =>
    if p.hour < 24 ∧ p.minute < 60 ∧ p.second ≤ 60 then
      let second := if p.second = 60 then 59 else p.second
      let nano := if p.second = 60 then p.nano + 1000000000 else p.nano
      of? (day * 86400 + p.hour * 3600 + p.minute * 60 + second - offset) nano
    else none

/-! ## RFC 3339 -/

def dateItems : List Item :=
  [.year, .blank, .char '-', .month, .blank, .char '-', .day]

def timeItems : List Item :=
  [.hour, .blank, .char ':', .minute, .blank, .char ':', .second, .fraction, .blank]

/-- Two digits. -/
def twoDigits : List Char → Option (Nat × List Char)
  | c :: d :: rest =>
    match digit? c, digit? d with
    | some m, some n => some (10 * m + n, rest)
    | _, _ => none
  | _ => none

/-- An offset from UTC in seconds: `Z`, `UTC`, or a sign, hours and minutes with colons or white
space between them. A minus sign may be U+2212. -/
def readOffset (s : List Char) : Option (Int × List Char) :=
  match s with
  | 'Z' :: rest => some (0, rest)
  | 'z' :: rest => some (0, rest)
  | c :: rest =>
    match (if (s.take 3).map Char.toUpper = ['U', 'T', 'C'] then some (s.drop 3) else none) with
    | some rest => some (0, rest)
    | none =>
      match (if c = '+' then some (1 : Int) else if c = '-' ∨ c = '−' then some (-1) else none) with
      | none => none
      | some sign =>
        match twoDigits rest with
        | none => none
        | some (hours, rest) =>
          match twoDigits (rest.dropWhile fun c => c == ':' || isBlank c) with
          | none => none
          | some (minutes, rest) =>
            if minutes < 60 ∧ hours < 24 then some (sign * (hours * 3600 + minutes * 60), rest)
            else none
  | [] => none

/-- Reads RFC 3339, where `t` or a space may stand for `T` and white space around the parts is
ignored. -/
def ofText? (s : List Char) : Option Instant :=
  match readItems {} s dateItems with
  | some (parts, c :: rest) =>
    if c = 'T' ∨ c = 't' ∨ c = ' ' then
      match readItems parts rest timeItems with
      | none => none
      | some (parts, rest) =>
        match readOffset rest with
        | none => none
        | some (offset, rest) =>
          if isAllBlank rest then parts.toInstant? offset else none
    else none
  | _ => none

def ofString? (s : String) : Option Instant :=
  ofText? s.toList

/-! ## The form of recurrence rules -/

def readAll (items : List Item) (s : List Char) : Option Instant :=
  match readItems {} s items with
  | some (parts, []) => parts.toInstant? 0
  | _ => none

/-- Reads `20240101T090000`, or `20240101` as the start of that day; one `Z` at the end is
dropped. -/
def ofCompact? (s : List Char) : Option Instant :=
  let s := dropFinal 'Z' (trim s)
  match readAll [.year, .month, .day, .char 'T', .hour, .minute, .second] s with
  | some t => some t
  | none => readAll [.year, .month, .day] s

end RunScheduler.Instant
