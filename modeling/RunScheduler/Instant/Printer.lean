import RunScheduler.Instant
import RunScheduler.Text.Decimal

/-!
# Instants as text

The forms in which instants are written: RFC 3339 with `Z` or `+00:00`, the form of messages
(`2024-01-01 00:00:00 UTC`), and the compact form of run names (`20240101T000000Z`). A leap
second is written as second 60. The first three give a fraction its three, six or nine digits,
the fewest that are exact.
-/

namespace RunScheduler.Instant

open Text

/-- Four digits, with a sign in front outside the years 0 to 9999. -/
def yearText (year : Int) : List Char :=
  if 0 ≤ year ∧ year ≤ 9999 then padded 4 year.toNat
  else (if year < 0 then '-' else '+') :: padded 4 year.natAbs

/-- Nothing, or a point and three, six or nine digits. -/
def fractionText (nano : Nat) : List Char :=
  if nano = 0 then []
  else if nano % 1000000 = 0 then '.' :: padded 3 (nano / 1000000)
  else if nano % 1000 = 0 then '.' :: padded 6 (nano / 1000)
  else '.' :: padded 9 nano

/-- The second as it is written: 60 in a leap second. -/
def writtenSecond (t : Instant) : Nat :=
  t.secondOfMinute + t.nano / 1000000000

def dateText (t : Instant) : List Char :=
  yearText t.year ++ '-' :: padded 2 t.month ++ '-' :: padded 2 t.dayOfMonth

def timeText (t : Instant) : List Char :=
  padded 2 t.hour ++ ':' :: padded 2 t.minute ++ ':' :: padded 2 t.writtenSecond ++
    fractionText (t.nano % 1000000000)

/-- The form in which instants are stored: `2024-01-01T00:00:00Z`. -/
def toText (t : Instant) : List Char :=
  t.dateText ++ 'T' :: t.timeText ++ ['Z']

def toString (t : Instant) : String :=
  String.ofList t.toText

/-- RFC 3339 with a numeric offset: `2024-01-01T00:00:00+00:00`. -/
def toOffsetString (t : Instant) : String :=
  String.ofList (t.dateText ++ 'T' :: t.timeText ++ "+00:00".toList)

/-- The form of messages: `2024-01-01 00:00:00 UTC`. -/
def toMessageString (t : Instant) : String :=
  String.ofList (t.dateText ++ ' ' :: t.timeText ++ " UTC".toList)

/-- The form of run names: `20240101T000000Z`. -/
def toCompactString (t : Instant) : String :=
  String.ofList (yearText t.year ++ padded 2 t.month ++ padded 2 t.dayOfMonth ++
    'T' :: padded 2 t.hour ++ padded 2 t.minute ++ padded 2 t.writtenSecond ++ ['Z'])

end RunScheduler.Instant
