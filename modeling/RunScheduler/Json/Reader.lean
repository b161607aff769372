import RunScheduler.Json
import RunScheduler.Json.DoubleRange
import RunScheduler.Text.Hexadecimal

/-!
# Reading JSON text

A reader of strict JSON: no leading zeros, no bare control characters in strings, no unpaired
surrogates, no numbers beyond double precision, nothing but white space after the value, and a
limit to nesting. `-0` is not an integer.
-/

namespace RunScheduler.Json

open Text

def isSpace (c : Char) : Bool :=
  c == ' ' || c == '\t' || c == '\r' || c == '\n'

def skipSpace (s : List Char) : List Char :=
  s.dropWhile isSpace

/-! ## Strings -/

/-- Four hexadecimal digits. -/
def readUnit : List Char → Option (Nat × List Char)
  | a :: b :: c :: d :: rest => (hexValue? [a, b, c, d]).map fun n => (n, rest)
  | _ => none

/-- The character of an escape, after its backslash. One outside the first plane takes two
units. -/
def readEscape : List Char → Option (Char × List Char)
  | '"' :: rest => some ('"', rest)
  | '\\' :: rest => some ('\\', rest)
  | '/' :: rest => some ('/', rest)
  | 'b' :: rest => some ('\x08', rest)
  | 'f' :: rest => some ('\x0c', rest)
  | 'n' :: rest => some ('\n', rest)
  | 'r' :: rest => some ('\r', rest)
  | 't' :: rest => some ('\t', rest)
  | 'u' :: rest =>
    match readUnit rest with
    | none => none
    | some (n, rest) =>
      if 0xD800 ≤ n ∧ n < 0xDC00 then
        match rest with
        | '\\' :: 'u' :: rest =>
          match readUnit rest with
          | some (m, rest) =>
            if 0xDC00 ≤ m ∧ m < 0xE000 then
              some (Char.ofNat (0x10000 + (n - 0xD800) * 0x400 + (m - 0xDC00)), rest)
            else none
          | none => none
        | _ => none
      else if 0xDC00 ≤ n ∧ n < 0xE000 then none
      else some (Char.ofNat n, rest)
  | _ => none

/-- The rest of a string after its opening quote, `found` being what was read of it, last
character first. The first argument bounds the length. -/
def readChars : Nat → List Char → List Char → Option (List Char × List Char)
  | _, _, [] => none
  | 0, _, _ => none
  | fuel + 1, found, c :: rest =>
    if c = '"' then some (found.reverse, rest)
    else if c = '\\' then
      match readEscape rest with
      | some (d, rest) => readChars fuel (d :: found) rest
      | none => none
    else if c.toNat < 0x20 then none
    else readChars fuel (c :: found) rest

/-! ## Numbers -/

/-- The digits at the front; at least one. -/
def readDigits (s : List Char) : Option (List Char × List Char) :=
  let digits := s.takeWhile isDigit
  if digits.isEmpty then none else some (digits, s.drop digits.length)

/-- One zero, or digits that begin with another. -/
def readWhole : List Char → Option (List Char × List Char)
  | '0' :: rest => some (['0'], rest)
  | s => readDigits s

def readFraction : List Char → Option (List Char × List Char)
  | '.' :: rest => (readDigits rest).map fun (d, r) => ('.' :: d, r)
  | s => some ([], s)

def readExponent : List Char → Option (List Char × List Char)
  | c :: rest =>
    if c = 'e' ∨ c = 'E' then
      match rest with
      | '+' :: rest => (readDigits rest).map fun (d, r) => (c :: '+' :: d, r)
      | '-' :: rest => (readDigits rest).map fun (d, r) => (c :: '-' :: d, r)
      | rest => (readDigits rest).map fun (d, r) => (c :: d, r)
    else some ([], c :: rest)
  | [] => some ([], [])

/-- The parts of a number as they are written. -/
structure Numeral where
  minus : Bool
  whole : List Char
  /-- With its point, if there is one. -/
  fraction : List Char
  /-- With its letter, if there is one. -/
  exponent : List Char

def readNumeral (s : List Char) : Option (Numeral × List Char) := do
  let (minus, s) := match s with
    | '-' :: rest => (true, rest)
    | s => (false, s)
  let (whole, s) ← readWhole s
  let (fraction, s) ← readFraction s
  let (exponent, s) ← readExponent s
  return ({ minus, whole, fraction, exponent }, s)

namespace Numeral

def exponentValue (n : Numeral) : Int :=
  if n.exponent.contains '-' then -(digitsValue n.exponent : Int) else digitsValue n.exponent

def text (n : Numeral) : String :=
  String.ofList ((if n.minus then ['-'] else []) ++ n.whole ++ n.fraction ++ n.exponent)

def isInteger (n : Numeral) : Bool :=
  n.fraction.isEmpty && n.exponent.isEmpty && !(n.minus && n.whole == ['0'])

def value (n : Numeral) : Json :=
  let whole := digitsValue n.whole
  if n.isInteger then .integer (if n.minus then -(whole : Int) else whole) else .real n.text

end Numeral

def readNumber (s : List Char) : Option (Json × List Char) :=
  match readNumeral s with
  | none => none
  | some (n, rest) =>
    if isInDoubleRange n.whole (n.fraction.drop 1) n.exponentValue then some (n.value, rest)
    else none

/-! ## Values -/

def maxDepth : Nat := 127

mutual

/-- A value. The first argument bounds the length, the second the nesting. -/
def readValue : Nat → Nat → List Char → Option (Json × List Char)
  | 0, _, _ => none
  | fuel + 1, depth, s =>
    match skipSpace s with
    | [] => none
    | '"' :: rest =>
      (readChars (rest.length + 1) [] rest).map fun (cs, r) => (.string (String.ofList cs), r)
    | '[' :: rest =>
      match depth, skipSpace rest with
      | 0, _ => none
      | _ + 1, ']' :: rest => some (.array [], rest)
      | depth + 1, rest => (readItems fuel depth rest).map fun (js, r) => (.array js, r)
    | '{' :: rest =>
      match depth, skipSpace rest with
      | 0, _ => none
      | _ + 1, '}' :: rest => some (.object [], rest)
      | depth + 1, rest => (readMembers fuel depth rest).map fun (ms, r) => (.object ms, r)
    | 'n' :: 'u' :: 'l' :: 'l' :: rest => some (.null, rest)
    | 't' :: 'r' :: 'u' :: 'e' :: rest => some (.bool true, rest)
    | 'f' :: 'a' :: 'l' :: 's' :: 'e' :: rest => some (.bool false, rest)
    | s => readNumber s

/-- The items of an array up to its end, at least one. -/
def readItems : Nat → Nat → List Char → Option (List Json × List Char)
  | 0, _, _ => none
  | fuel + 1, depth, s =>
    match readValue fuel depth s with
    | none => none
    | some (j, rest) =>
      match skipSpace rest with
      | ',' :: rest => (readItems fuel depth rest).map fun (js, r) => (j :: js, r)
      | ']' :: rest => some ([j], rest)
      | _ => none

/-- The members of an object up to its end, at least one. -/
def readMembers : Nat → Nat → List Char → Option (List (String × Json) × List Char)
  | 0, _, _ => none
  | fuel + 1, depth, s =>
    match skipSpace s with
    | '"' :: rest =>
      match readChars (rest.length + 1) [] rest with
      | none => none
      | some (name, rest) =>
        match skipSpace rest with
        | ':' :: rest =>
          match readValue fuel depth rest with
          | none => none
          | some (j, rest) =>
            match skipSpace rest with
            | ',' :: rest =>
              (readMembers fuel depth rest).map fun (ms, r) =>
                ((String.ofList name, j) :: ms, r)
            | '}' :: rest => some ([(String.ofList name, j)], rest)
            | _ => none
        | _ => none
    | _ => none

end

/-- Reads a text that holds one value. -/
def ofText? (s : List Char) : Option Json :=
  match readValue (2 * s.length + 2) maxDepth s with
  | some (j, rest) => if (skipSpace rest).isEmpty then some j else none
  | none => none

def ofString? (s : String) : Option Json :=
  ofText? s.toList

end RunScheduler.Json
