import RunScheduler.Json
import RunScheduler.Text.Decimal
import RunScheduler.Text.Hexadecimal

/-!
# Writing JSON text

Two forms: on one line without spaces, and indented by two spaces. Characters are written as
they are, except quotes, backslashes and control characters.
-/

namespace RunScheduler.Json

open Text

def escapeChar (c : Char) : List Char :=
  if c = '"' then ['\\', '"']
  else if c = '\\' then ['\\', '\\']
  else if c = '\n' then ['\\', 'n']
  else if c = '\r' then ['\\', 'r']
  else if c = '\t' then ['\\', 't']
  else if c = '\x08' then ['\\', 'b']
  else if c = '\x0c' then ['\\', 'f']
  else if c.toNat < 0x20 then '\\' :: 'u' :: hexDigits 4 c.toNat
  else [c]

def quote (s : String) : String :=
  "\"" ++ String.ofList (s.toList.flatMap escapeChar) ++ "\""

def scalarText : Json → String
  | null => "null"
  | bool true => "true"
  | bool false => "false"
  | integer n => String.ofList (intText n)
  | real literal => literal
  | string s => quote s
  | array _ => "[]"
  | object _ => "\x7b\x7d"

mutual

/-- One line without spaces. -/
def toText : Json → String
  | array items => "[" ++ itemsText items ++ "]"
  | object members => "\x7b" ++ membersText members ++ "\x7d"
  | j => j.scalarText

def itemsText : List Json → String
  | [] => ""
  | [j] => j.toText
  | j :: items => j.toText ++ "," ++ itemsText items

def membersText : List (String × Json) → String
  | [] => ""
  | [(name, j)] => quote name ++ ":" ++ j.toText
  | (name, j) :: members => quote name ++ ":" ++ j.toText ++ "," ++ membersText members

end

/-- A line break and the indentation of a depth. -/
def newline (depth : Nat) : String :=
  "\n" ++ String.ofList (List.replicate (2 * depth) ' ')

mutual

/-- Every item and member on a line of its own, indented by its depth. -/
def indented (depth : Nat) : Json → String
  | array [] => "[]"
  | array items => "[" ++ indentedItems (depth + 1) items ++ newline depth ++ "]"
  | object [] => "\x7b\x7d"
  | object members => "\x7b" ++ indentedMembers (depth + 1) members ++ newline depth ++ "\x7d"
  | j => j.scalarText

def indentedItems (depth : Nat) : List Json → String
  | [] => ""
  | [j] => newline depth ++ j.indented depth
  | j :: items => newline depth ++ j.indented depth ++ "," ++ indentedItems depth items

def indentedMembers (depth : Nat) : List (String × Json) → String
  | [] => ""
  | [(name, j)] => newline depth ++ quote name ++ ": " ++ j.indented depth
  | (name, j) :: members =>
    newline depth ++ quote name ++ ": " ++ j.indented depth ++ "," ++ indentedMembers depth members

end

def toPrettyText (j : Json) : String :=
  j.indented 0

end RunScheduler.Json
