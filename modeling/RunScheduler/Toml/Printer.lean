import RunScheduler.Text.Decimal
import RunScheduler.Text.Hexadecimal

/-!
# Writing TOML values

A string is written in the plainest quotes that hold it; double quotes, which can hold any, have
escapes for what cannot stand in them. Integers have 64 bits and a sign, so that greater numbers
cannot be written.
-/

namespace RunScheduler.Toml

open Text

def booleanText (b : Bool) : String :=
  if b then "true" else "false"

/-- The digits of a number, if it is small enough. -/
def natText? (n : Nat) : Option String :=
  if n ≤ 9223372036854775807 then some (String.ofList (natText n)) else none

/-! ## Strings -/

/-- Whether a character, other than a line break, cannot stand in a string without an escape. -/
def isControl (c : Char) : Bool :=
  c != '\t' && c != '\n' && (c.toNat < 0x20 || c.toNat == 0x7F)

/-- The length of the longest run of a character. -/
def longestRun (c : Char) (s : List Char) : Nat :=
  go 0 0 s
where
  go (run longest : Nat) : List Char → Nat
    | [] => max run longest
    | d :: rest => if d = c then go (run + 1) longest rest else go 0 (max run longest) rest

/-- What stands at both ends of a string. -/
inductive Quotes
  | double | single | threeDouble | threeSingle
deriving DecidableEq, Repr

/-- The plainest quotes for a string. -/
def quotesFor (s : List Char) : Quotes :=
  let lines := s.contains '\n'
  if s.any isControl then if lines then .threeDouble else .double
  else if !lines && !s.contains '\\' && !s.contains '"' then .double
  else if !lines && !s.contains '\'' then .single
  else if !s.contains '\\' && longestRun '"' s ≤ 2 then .threeDouble
  else if longestRun '\'' s ≤ 2 then .threeSingle
  else if lines then .threeDouble else .double

def escapeChar (c : Char) : List Char :=
  if c = '\x08' then ['\\', 'b']
  else if c = '\t' then ['\\', 't']
  else if c = '\n' then ['\\', 'n']
  else if c = '\x0c' then ['\\', 'f']
  else if c = '\r' then ['\\', 'r']
  else if c = '"' then ['\\', '"']
  else if c = '\\' then ['\\', '\\']
  else if c.toNat < 0x20 ∨ c.toNat = 0x7F then
    '\\' :: 'u' :: (hexDigits 4 c.toNat).map Char.toUpper
  else [c]

/-- The inside of a string in double quotes. On several lines, line breaks and up to two quotes
in a row, of which `run` came before, stand as they are. -/
def escape (lines : Bool) : (run : Nat) → List Char → List Char
  | _, [] => []
  | run, c :: rest =>
    if lines ∧ c = '"' ∧ run < 2 then c :: escape lines (run + 1) rest
    else if lines ∧ c = '\n' then c :: escape lines 0 rest
    else escapeChar c ++ escape lines 0 rest

/-- A string in three quotes begins on a line of its own if it goes over several. -/
def block (quote s inside : List Char) : List Char :=
  quote ++ (if s.contains '\n' then ['\n'] else []) ++ inside ++ quote

def quote (s : List Char) : List Char :=
  match quotesFor s with
  | .double => ['"'] ++ escape false 0 s ++ ['"']
  | .single => ['\''] ++ s ++ ['\'']
  | .threeDouble => block ['"', '"', '"'] s (escape true 0 s)
  | .threeSingle => block ['\'', '\'', '\''] s s

def stringText (s : String) : String :=
  String.ofList (quote s.toList)

end RunScheduler.Toml
