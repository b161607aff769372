/-!
# JSON values

The values of JSON with members in the order written. Numbers are integers; any other number is
kept as it was written, since nothing here accepts one. A record is read from an object by the
names of its fields, or from an array by their order.
-/

namespace RunScheduler

inductive Json
  | null
  | bool (b : Bool)
  | integer (n : Int)
  /-- A number that is not written as an integer. -/
  | real (literal : String)
  | string (s : String)
  | array (items : List Json)
  | object (members : List (String × Json))
deriving Inhabited

namespace Json

/-! ## Scalars -/

def bool? : Json → Option Bool
  | bool b => some b
  | _ => none

def string? : Json → Option String
  | string s => some s
  | _ => none

/-- An integer from 0 to `max`. -/
def natUpTo? (max : Nat) : Json → Option Nat
  | integer n => if 0 ≤ n ∧ n ≤ (max : Int) then some n.toNat else none
  | _ => none

def uint32? (j : Json) : Option UInt32 :=
  (j.natUpTo? 4294967295).map UInt32.ofNat

def uint64? (j : Json) : Option UInt64 :=
  (j.natUpTo? 18446744073709551615).map UInt64.ofNat

def ofNat (n : Nat) : Json :=
  integer n

/-- The name of a variant without fields: a string, or an object with that one member and the
value null. -/
def variant? : Json → Option String
  | string s => some s
  | object [(name, null)] => some name
  | _ => none

def listOf? {α : Type} (decode : Json → Option α) : Json → Option (List α)
  | array items => items.mapM decode
  | _ => none

/-- Null, or a value. -/
def nullable? {α : Type} (decode : Json → Option α) : Json → Option (Option α)
  | null => some none
  | j => (decode j).map some

def ofOption {α : Type} (encode : α → Json) : Option α → Json
  | none => null
  | some a => encode a

/-! ## Records -/

/-- The fields of a record that were given. -/
structure Record where
  fields : List (String × Json)

/-- The members of an object that have one of the names. No name may occur twice among them. -/
def namedFields (names : List String) (members : List (String × Json)) : Option Record :=
  let known := members.filter fun (name, _) => names.contains name
  if (known.map (·.1)).Nodup then some ⟨known⟩ else none

/-- Reads a record with fields of these names: from an object, whose other members are ignored,
or from an array that holds the first of the fields in order. -/
def record? (names : List String) : Json → Option Record
  | object members => namedFields names members
  | array items => if items.length ≤ names.length then some ⟨names.zip items⟩ else none
  | _ => none

namespace Record

def required {α : Type} (r : Record) (name : String) (decode : Json → Option α) : Option α :=
  match r.fields.lookup name with
  | none => none
  | some j => decode j

/-- A field that may be missing or null. -/
def optional {α : Type} (r : Record) (name : String) (decode : Json → Option α) :
    Option (Option α) :=
  match r.fields.lookup name with
  | none => some none
  | some j => j.nullable? decode

/-- A field that may be missing, but not null. -/
def withDefault {α : Type} (r : Record) (name : String) (decode : Json → Option α)
    (default : α) : Option α :=
  match r.fields.lookup name with
  | none => some default
  | some j => decode j

end Record

/-- The member that a field with a value has in an object; one without has none. -/
def memberIfSome {α : Type} (name : String) (encode : α → Json) :
    Option α → List (String × Json)
  | none => []
  | some a => [(name, encode a)]

end Json

end RunScheduler
