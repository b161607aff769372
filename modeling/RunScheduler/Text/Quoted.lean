import RunScheduler.Text.Hexadecimal
import RunScheduler.Text.Unprintable

/-!
# Quoted texts

A text in double quotes, as it is shown in messages: quotes, backslashes and characters that are
not shown as they are have an escape, all others stand for themselves.
-/

namespace RunScheduler.Text

/-- The digits of a number without leading zeros. -/
def hexText (n : Nat) : List Char :=
  match (hexDigits 6 n).dropWhile (· == '0') with
  | [] => ['0']
  | digits => digits

/-- A character as it is written between quotes. -/
def escaped (c : Char) : List Char :=
  if c = '\x00' then ['\\', '0']
  else if c = '\t' then ['\\', 't']
  else if c = '\r' then ['\\', 'r']
  else if c = '\n' then ['\\', 'n']
  else if c = '"' then ['\\', '"']
  else if c = '\\' then ['\\', '\\']
  else if isUnprintable c then ['\\', 'u', '{'] ++ hexText c.toNat ++ ['}']
  else [c]

def quoted (s : String) : String :=
  "\"" ++ String.ofList (s.toList.flatMap escaped) ++ "\""

end RunScheduler.Text
