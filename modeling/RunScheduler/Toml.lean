/-!
# TOML values

The values of a TOML document. A table remembers how it came about, since that decides what may
still be added to it. Numbers with a fraction or an exponent, dates and times are kept without
their value, as nothing here is set by one. A record is read from a table by the names of its
fields, or from an array by their order.
-/

namespace RunScheduler

/-- How a table came about. -/
inductive Toml.Origin
  /-- By a header of its own, or as the root. -/
  | header
  /-- On the way to the table of another header. -/
  | path
  /-- On the way to the value of a dotted key. -/
  | dotted
  /-- In braces; nothing can be added to it. -/
  | inline
deriving DecidableEq, Repr

inductive Toml
  | string (s : String)
  | integer (n : Int)
  | real
  | boolean (b : Bool)
  /-- A date, a time, or both. -/
  | moment
  | array (items : List Toml)
  /-- The tables of headers in double brackets. -/
  | tables (items : List Toml)
  | table (origin : Toml.Origin) (members : List (String × Toml))
deriving Inhabited

namespace Toml

abbrev Members := List (String × Toml)

/-! ## Scalars -/

def string? : Toml → Option String
  | string s => some s
  | _ => none

def boolean? : Toml → Option Bool
  | boolean b => some b
  | _ => none

/-- An integer from 0 to `max`. -/
def natUpTo? (max : Nat) : Toml → Option Nat
  | integer n => if 0 ≤ n ∧ n ≤ (max : Int) then some n.toNat else none
  | _ => none

def uint32? (t : Toml) : Option UInt32 :=
  (t.natUpTo? 4294967295).map UInt32.ofNat

def uint64? (t : Toml) : Option UInt64 :=
  (t.natUpTo? 18446744073709551615).map UInt64.ofNat

def isEmpty : Toml → Bool
  | array items | tables items => items.isEmpty
  | table _ members => members.isEmpty
  | _ => false

/-- The name of a variant without fields: a string, or a table with that one member, which is
empty. -/
def variant? : Toml → Option String
  | string s => some s
  | table _ [(name, t)] => if t.isEmpty then some name else none
  | _ => none

/-! ## Records -/

/-- The fields of a record that were given. -/
structure Record where
  fields : Members

/-- Reads a record with fields of these names. Members of other names are ignored, and so are
items in excess. A date or time counts as a table without any of the names. -/
def record? (names : List String) : Toml → Option Record
  | table _ members => some ⟨members.filter fun (name, _) => names.contains name⟩
  | array items | tables items => some ⟨names.zip items⟩
  | moment => some ⟨[]⟩
  | _ => none

/-- A field that may be missing. -/
def Record.withDefault {α : Type} (r : Record) (name : String) (decode : Toml → Option α)
    (default : α) : Option α :=
  match r.fields.lookup name with
  | none => some default
  | some t => decode t

end Toml

end RunScheduler
