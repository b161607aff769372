import RunScheduler.Json.Printer
import RunScheduler.Json.Reader
import RunScheduler.Text.Cut

/-!
# Run ids

An id has 128 bits and is written as 32 hexadecimal digits in groups of 8, 4, 4, 4 and 12 with
hyphens between them. It is read in any letter case, also without hyphens, in braces, or after
`urn:uuid:`. Ids are ordered as numbers, which is the order of their texts.
-/

namespace RunScheduler

structure RunId where
  bits : BitVec 128
deriving DecidableEq

namespace RunId

open Text

instance : Inhabited RunId := ⟨⟨0⟩⟩

instance : LT RunId := ⟨fun a b => a.bits.toNat < b.bits.toNat⟩

instance : DecidableLT RunId := fun a b =>
  inferInstanceAs (Decidable (a.bits.toNat < b.bits.toNat))

/-- The 32 digits without hyphens. -/
def digits (id : RunId) : List Char :=
  hexDigits 32 id.bits.toNat

/-- Hyphens after 8, 12, 16 and 20 digits. -/
def hyphenate (digits : List Char) : List Char :=
  digits.take 8 ++ '-' :: (digits.drop 8).take 4 ++ '-' :: (digits.drop 12).take 4 ++
    '-' :: (digits.drop 16).take 4 ++ '-' :: digits.drop 20

def toText (id : RunId) : List Char :=
  hyphenate id.digits

def toString (id : RunId) : String :=
  String.ofList id.toText

/-- The first eight digits. -/
def shortText (id : RunId) : List Char :=
  id.digits.take 8

def ofDigits? (s : List Char) : Option RunId :=
  if s.length = 32 then (hexValue? s).map fun n => ⟨BitVec.ofNat 128 n⟩ else none

/-- Reads groups of 8, 4, 4, 4 and 12 digits with hyphens between them. -/
def ofHyphenated? (s : List Char) : Option RunId :=
  let groups := splitAt '-' s
  if groups.map List.length = [8, 4, 4, 4, 12] then ofDigits? groups.flatten else none

def urnBeginning : List Char := "urn:uuid:".toList

def ofText? (s : List Char) : Option RunId :=
  if s.length = 32 then ofDigits? s
  else if s.length = 36 then ofHyphenated? s
  else if s.length = 38 ∧ s.head? = some '\x7b' ∧ s.getLast? = some '\x7d' then
    ofHyphenated? s.tail.dropLast
  else if s.length = 45 ∧ (s.take 9).map Char.toLower = urnBeginning then
    ofHyphenated? (s.drop 9)
  else none

def ofString? (s : String) : Option RunId :=
  ofText? s.toList

def ofJson? (j : Json) : Option RunId :=
  j.string?.bind ofString?

def toJson (id : RunId) : Json :=
  .string id.toString

end RunId

end RunScheduler
