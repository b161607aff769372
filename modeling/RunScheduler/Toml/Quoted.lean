import RunScheduler.Text.Decimal
import RunScheduler.Text.Hexadecimal
import RunScheduler.Toml

/-!
# TOML strings

Strings in double quotes have escapes, those in single quotes none; in three quotes of either
kind they may go over several lines. Every reader takes what follows the opening quotes and gives
the characters and the rest of the text.
-/

namespace RunScheduler.Toml

open Text

def isSpace (c : Char) : Bool :=
  c == ' ' || c == '\t'

def skipSpace (s : List Char) : List Char :=
  s.dropWhile isSpace

/-- What follows a line break. -/
def afterNewline? : List Char → Option (List Char)
  | '\n' :: rest => some rest
  | '\r' :: '\n' :: rest => some rest
  | _ => none

/-- Whether a character may stand in a string or a comment as it is. -/
def isPlain (c : Char) : Bool :=
  c == '\t' || (0x20 ≤ c.toNat && c.toNat != 0x7F)

/-! ## Escapes -/

/-- The character with the number written by the first `width` digits. -/
def readCodePoint (width : Nat) (s : List Char) : Option (Char × List Char) :=
  if width ≤ s.length then
    match hexValue? (s.take width) with
    | some n => if h : n.isValidChar then some (Char.ofNatAux n h, s.drop width) else none
    | none => none
  else none

/-- The character of an escape, after its backslash. -/
def readEscape : List Char → Option (Char × List Char)
  | 'b' :: rest => some ('\x08', rest)
  | 't' :: rest => some ('\t', rest)
  | 'n' :: rest => some ('\n', rest)
  | 'f' :: rest => some ('\x0c', rest)
  | 'r' :: rest => some ('\r', rest)
  | '"' :: rest => some ('"', rest)
  | '\\' :: rest => some ('\\', rest)
  | 'u' :: rest => readCodePoint 4 rest
  | 'U' :: rest => readCodePoint 8 rest
  | _ => none

/-! ## One line -/

/-- A string in double quotes. The first argument bounds the length. -/
def readBasic : Nat → List Char → List Char → Option (List Char × List Char)
  | 0, _, _ => none
  | _, _, [] => none
  | fuel + 1, found, c :: rest =>
    if c = '"' then some (found.reverse, rest)
    else if c = '\\' then
      match readEscape rest with
      | some (d, rest) => readBasic fuel (d :: found) rest
      | none => none
    else if isPlain c then readBasic fuel (c :: found) rest
    else none

/-- A string in single quotes. -/
def readLiteral (s : List Char) : Option (List Char × List Char) :=
  let body := s.takeWhile fun c => isPlain c && c != '\''
  match s.drop body.length with
  | '\'' :: rest => some (body, rest)
  | _ => none

/-! ## Several lines -/

/-- A run of quotes: up to two are part of the string, three close it, and up to two more
before those are part of it. -/
def closing? (quote : Char) (s : List Char) : Option (List Char × List Char) :=
  let run := s.takeWhile (· == quote)
  if 3 ≤ run.length ∧ run.length ≤ 5 then some (run.drop 3, s.drop run.length) else none

/-- White space and line breaks after a backslash at the end of a line, which are no part of the
string. -/
def skipBlankLines : List Char → List Char
  | [] => []
  | '\r' :: '\n' :: rest => skipBlankLines rest
  | c :: rest => if isSpace c || c == '\n' then skipBlankLines rest else c :: rest

/-- The body of a string in three quotes, with escapes or without. The first argument bounds the
length. -/
def readLines (quote : Char) (escapes : Bool) :
    Nat → List Char → List Char → Option (List Char × List Char)
  | 0, _, _ => none
  | _, _, [] => none
  | fuel + 1, found, c :: rest =>
    if c = quote then
      let run := (c :: rest).takeWhile (· == quote)
      if run.length < 3 then
        readLines quote escapes fuel (run ++ found) ((c :: rest).drop run.length)
      else (closing? quote (c :: rest)).map fun (more, rest) => (found.reverse ++ more, rest)
    else if c = '\\' ∧ escapes then
      match afterNewline? (skipSpace rest) with
      | some rest => readLines quote escapes fuel found (skipBlankLines rest)
      | none =>
        match readEscape rest with
        | some (d, rest) => readLines quote escapes fuel (d :: found) rest
        | none => none
    else if isPlain c then readLines quote escapes fuel (c :: found) rest
    else
      match afterNewline? (c :: rest) with
      | some rest => readLines quote escapes fuel ('\n' :: found) rest
      | none => none

/-- A string in three quotes; a line break right after them is no part of it. -/
def readBlock (quote : Char) (escapes : Bool) (s : List Char) : Option (List Char × List Char) :=
  let body := (afterNewline? s).getD s
  readLines quote escapes (body.length + 1) [] body

/-! ## Any string -/

/-- A string on one line, with its quotes. -/
def readQuoted : List Char → Option (List Char × List Char)
  | '"' :: rest => readBasic (rest.length + 1) [] rest
  | '\'' :: rest => readLiteral rest
  | _ => none

/-- A string with its quotes. -/
def readString : List Char → Option (List Char × List Char)
  | '"' :: '"' :: '"' :: rest => readBlock '"' true rest
  | '\'' :: '\'' :: '\'' :: rest => readBlock '\'' false rest
  | s => readQuoted s

end RunScheduler.Toml
