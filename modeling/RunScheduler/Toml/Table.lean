import RunScheduler.Toml

/-!
# Building TOML tables

What a document says is put into its root table one statement after another. Nothing is defined
twice: a header reopens a table only if headers below it came first, a dotted key adds only to
tables that no header defined, and nothing adds to a table in braces.
-/

namespace RunScheduler.Toml

/-- A table that is being built. -/
structure Node where
  origin : Origin
  members : Members

/-- A dotted key: its last part, and the parts before it. -/
structure Path where
  parents : List String
  key : String

namespace Node

/-- The members with one replaced or added. -/
def put (members : Members) (key : String) (t : Toml) : Members :=
  match members with
  | [] => [(key, t)]
  | (k, u) :: rest => if k = key then (k, t) :: rest else (k, u) :: put rest key t

def insert (n : Node) (key : String) (t : Toml) : Node :=
  { n with members := put n.members key t }

def toToml (n : Node) : Toml :=
  .table n.origin n.members

/-- The last of some tables, and those before it. -/
def lastTable? (items : List Toml) : Option (List Toml × Node) :=
  match items.getLast? with
  | some (.table origin members) => some (items.dropLast, ⟨origin, members⟩)
  | _ => none

/-- Changes the table at a path, which for the tables of double brackets goes on through the last
of them. Tables on the way that are missing are made. A dotted key does not pass through a table
that a header defined. -/
def within (dotted : Bool) : List String → Node → (Node → Option Node) → Option Node
  | [], node, change => change node
  | key :: path, node, change =>
    match node.members.lookup key with
    | none =>
      (within dotted path ⟨if dotted then .dotted else .path, []⟩ change).map fun m =>
        node.insert key m.toToml
    | some (.table origin members) =>
      if origin = .inline ∨ (dotted ∧ origin = .header) then none
      else (within dotted path ⟨origin, members⟩ change).map fun m => node.insert key m.toToml
    | some (.tables items) =>
      match lastTable? items with
      | none => none
      | some (before, last) =>
        (within dotted path last change).map fun m =>
          node.insert key (.tables (before ++ [m.toToml]))
    | some _ => none

/-- Sets a key of the table. A dotted key sets no key of a table on the way to a header. -/
def assign (node : Node) (path : Path) (value : Toml) : Option Node :=
  within true path.parents node fun target =>
    if (decide (target.origin = .dotted)) == path.parents.isEmpty then none
    else if (target.members.lookup path.key).isSome then none
    else some (target.insert path.key value)

/-- Makes or reopens the table of a header. -/
def openTable (root : Node) (path : Path) : Option Node :=
  within false path.parents root fun parent =>
    match parent.members.lookup path.key with
    | none => some (parent.insert path.key (.table .header []))
    | some (.table .path members) => some (parent.insert path.key (.table .header members))
    | some _ => none

/-- Adds a table to those of a header in double brackets. -/
def addTable (root : Node) (path : Path) : Option Node :=
  within false path.parents root fun parent =>
    match parent.members.lookup path.key with
    | none => some (parent.insert path.key (.tables [.table .header []]))
    | some (.tables items) =>
      some (parent.insert path.key (.tables (items ++ [.table .header []])))
    | some _ => none

end Node

end RunScheduler.Toml
