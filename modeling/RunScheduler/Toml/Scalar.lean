import RunScheduler.Calendar
import RunScheduler.Toml.Quoted

/-!
# TOML numbers, dates and times

An integer is decimal with an optional sign, or hexadecimal, octal or binary after a mark; single
underscores may stand between digits. A number with a fraction or an exponent has to be in the
range of double precision on the positive side. A date has to be in the calendar; a time may have
a second 60.
-/

namespace RunScheduler.Toml

open Text

/-! ## Digits -/

/-- Digits of some kind with single underscores between them, which are left out. An underscore
has to be followed by a digit. -/
def readDigits (isDigit : Char → Bool) : List Char → Option (List Char × List Char)
  | [] => none
  | c :: rest => if isDigit c then (more rest).map fun (ds, r) => (c :: ds, r) else none
where
  more : List Char → Option (List Char × List Char)
    | '_' :: d :: rest =>
      if isDigit d then (more rest).map fun (ds, r) => (d :: ds, r) else none
    | '_' :: [] => none
    | d :: rest => if isDigit d then (more rest).map fun (ds, r) => (d :: ds, r)
      else some ([], d :: rest)
    | [] => some ([], [])

/-- One zero, or digits that begin with another. -/
def readWhole : List Char → Option (List Char × List Char)
  | '0' :: rest => some (['0'], rest)
  | s => readDigits Text.isDigit s

/-- Whether a minus sign stands in front, and what follows the sign if there is one. -/
def readSign : List Char → Bool × List Char
  | '+' :: rest => (false, rest)
  | '-' :: rest => (true, rest)
  | s => (false, s)

/-! ## Integers -/

/-- The integer, if it has 64 bits. -/
def ofInt? (n : Int) : Option Toml :=
  if -9223372036854775808 ≤ n ∧ n ≤ 9223372036854775807 then some (.integer n) else none

def digitBelow (base : Nat) (c : Char) : Bool :=
  match hexDigit? c with
  | some d => decide (d < base)
  | none => false

/-- A number in a base, after its mark. -/
def readBased (base : Nat) (s : List Char) : Option (Toml × List Char) := do
  let (digits, rest) ← readDigits (digitBelow base) s
  let t ← ofInt? (digits.foldl (fun n c => base * n + (hexDigit? c).getD 0) 0 : Nat)
  return (t, rest)

def readInteger : List Char → Option (Toml × List Char)
  | '0' :: 'x' :: rest => readBased 16 rest
  | '0' :: 'o' :: rest => readBased 8 rest
  | '0' :: 'b' :: rest => readBased 2 rest
  | s => do
    let (minus, s) := readSign s
    let (digits, rest) ← readWhole s
    let t ← ofInt? (if minus then -(digitsValue digits : Int) else digitsValue digits)
    return (t, rest)

/-! ## Numbers with a fraction or an exponent -/

/-- Whether the number `digits · 10 ^ exponent` is rounded to infinity in double precision. -/
def exceedsDouble (digits : List Char) (exponent : Int) : Bool :=
  let significant := digits.dropWhile (· == '0')
  let magnitude := significant.length + exponent
  let limit := Nat.pow 2 1024 - Nat.pow 2 970
  if significant.isEmpty ∨ magnitude < 300 then false
  else if 400 < magnitude then true
  else if 0 ≤ exponent then limit ≤ digitsValue significant * Nat.pow 10 exponent.toNat
  else limit * Nat.pow 10 (-exponent).toNat ≤ digitsValue significant

/-- The result of a reader that has begun something and has to finish it: nothing was begun, it
was finished, or it is faulty. -/
inductive Attempt (α : Type)
  | absent
  | present (a : α) (rest : List Char)
  | faulty

def Attempt.ofOption {α : Type} : Option (α × List Char) → Attempt α
  | some (a, rest) => .present a rest
  | none => .faulty

/-- The digits after a point. -/
def readFraction : List Char → Attempt (List Char)
  | '.' :: rest => .ofOption (readDigits Text.isDigit rest)
  | _ => .absent

def readExponent : List Char → Attempt Int
  | c :: rest =>
    if c = 'e' ∨ c = 'E' then
      let (minus, rest) := readSign rest
      .ofOption <| (readDigits Text.isDigit rest).map fun (digits, rest) =>
        (if minus then -(digitsValue digits : Int) else digitsValue digits, rest)
    else .absent
  | [] => .absent

/-- The number, unless it is too large. -/
def ofReal (minus : Bool) (whole fraction : List Char) (exponent : Int) (rest : List Char) :
    Attempt Toml :=
  if !minus && exceedsDouble (whole ++ fraction) (exponent - fraction.length) then .faulty
  else .present .real rest

/-- Infinity, or no number, after the sign. -/
def readSpecial : List Char → Attempt Toml
  | 'i' :: 'n' :: 'f' :: rest => .present .real rest
  | 'n' :: 'a' :: 'n' :: rest => .present .real rest
  | _ => .absent

def readReal (s : List Char) : Attempt Toml :=
  let (minus, s) := readSign s
  match readWhole s with
  | none => readSpecial s
  | some (whole, s) =>
    match readFraction s with
    | .faulty => .faulty
    | .absent =>
      match readExponent s with
      | .absent => .absent
      | .faulty => .faulty
      | .present exponent rest => ofReal minus whole [] exponent rest
    | .present fraction s =>
      match readExponent s with
      | .faulty => .faulty
      | .absent => ofReal minus whole fraction 0 s
      | .present exponent rest => ofReal minus whole fraction exponent rest

/-! ## Dates and times -/

/-- A number of exactly `width` digits in a range. -/
def readPart (width least greatest : Nat) (s : List Char) : Option (Nat × List Char) :=
  let digits := s.take width
  if digits.length = width ∧ digits.all Text.isDigit ∧ least ≤ digitsValue digits ∧
      digitsValue digits ≤ greatest then
    some (digitsValue digits, s.drop width)
  else none

/-- One character. -/
def readChar (c : Char) : List Char → Option (List Char)
  | d :: rest => if d = c then some rest else none
  | [] => none

/-- What follows a month and day after the year and its hyphen. -/
def readMonthDay (year : Nat) (s : List Char) : Option (List Char) := do
  let (month, s) ← readPart 2 1 12 s
  let s ← readChar '-' s
  let (day, s) ← readPart 2 1 31 s
  if Calendar.hasDay year month day then some s else none

/-- What follows a minute, a second and a fraction after the hour and its colon. -/
def readMinuteSecond (s : List Char) : Option (List Char) := do
  let (_, s) ← readPart 2 0 59 s
  let s ← readChar ':' s
  let (_, s) ← readPart 2 0 60 s
  match s with
  | '.' :: c :: rest => if Text.isDigit c then some (rest.dropWhile Text.isDigit) else some s
  | s => some s

/-- A time of day. -/
def readTime (s : List Char) : Attempt Unit :=
  match readPart 2 0 23 s with
  | some (_, ':' :: rest) => .ofOption ((readMinuteSecond rest).map fun rest => ((), rest))
  | _ => .absent

/-- What follows the distance from UTC, if there is one. -/
def readOffset : List Char → Option (List Char)
  | 'Z' :: rest | 'z' :: rest => some rest
  | '+' :: rest | '-' :: rest => do
    let (_, s) ← readPart 2 0 23 rest
    let s ← readChar ':' s
    let (_, s) ← readPart 2 0 59 s
    some s
  | s => some s

/-- The time after a date, if there is one. -/
def readTimeOfDate (s : List Char) : Attempt Toml :=
  match s with
  | c :: rest =>
    if c = 'T' ∨ c = 't' ∨ c = ' ' then
      match readTime rest with
      | .faulty => .faulty
      | .absent => .present .moment s
      | .present _ rest => .ofOption ((readOffset rest).map fun rest => (.moment, rest))
    else .present .moment s
  | [] => .present .moment s

/-- A date, a time, or both. -/
def readMoment (s : List Char) : Attempt Toml :=
  match readPart 4 0 9999 s with
  | some (year, '-' :: rest) =>
    match readMonthDay year rest with
    | none => .faulty
    | some rest => readTimeOfDate rest
  | _ =>
    match readTime s with
    | .absent => .absent
    | .faulty => .faulty
    | .present _ rest => .present .moment rest

/-! ## Any of them -/

/-- What begins with a digit or a sign: a date or time, else a number with a fraction or an
exponent, else an integer. -/
def readNumeric (s : List Char) : Option (Toml × List Char) :=
  match readMoment s with
  | .faulty => none
  | .present t rest => some (t, rest)
  | .absent =>
    match readReal s with
    | .faulty => none
    | .present t rest => some (t, rest)
    | .absent => readInteger s

end RunScheduler.Toml
