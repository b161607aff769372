import RunScheduler.Settings
import RunScheduler.Toml.Reader
import RunScheduler.Toml.Printer

/-!
# Settings as TOML

A file may give any of the settings; the others keep their defaults, and names that are no
settings are passed over. Written out, every table has a header and every setting a line.
-/

namespace RunScheduler

namespace Setting

def Kind.ofToml? : (k : Kind) → Toml → Option k.Value
  | .text, t => t.string?
  | .format, t => t.variant?.bind LogFormat.ofName?
  | .flag, t => t.boolean?
  | .count, t => t.uint32?
  | .number, t => t.uint64?

/-- The value as it is written; a number may be too large to be written. -/
def Kind.toToml? : (k : Kind) → k.Value → Option String
  | .text, v => some (Toml.stringText v)
  | .format, v => some (Toml.stringText (LogFormat.name v))
  | .flag, v => some (Toml.booleanText v)
  | .count, v => Toml.natText? (UInt32.toNat v)
  | .number, v => Toml.natText? (UInt64.toNat v)

/-- The settings that lie in some tables. -/
def inTables (tables : List String) : List Setting :=
  all.filter (·.tables = tables)

end Setting

namespace Settings

/-! ## Reading -/

/-- Sets the settings among some that a record has. -/
def fill (s : Settings) (r : Toml.Record) (settings : List Setting) : Option Settings :=
  settings.foldlM (fun s k =>
    match r.fields.lookup k.key with
    | none => some s
    | some t => (k.kind.ofToml? t).map (s.set k)) s

/-- Sets the settings of a table. -/
def fillTable (s : Settings) (tables : List String) (t : Toml) : Option Settings := do
  let settings := Setting.inTables tables
  let r ← t.record? (settings.map (·.key))
  s.fill r settings

/-- Sets what a table within a record says, if the record has the table. -/
def fillFrom (s : Settings) (r : Toml.Record) (name : String)
    (set : Settings → Toml → Option Settings) : Option Settings :=
  match r.fields.lookup name with
  | none => some s
  | some t => set s t

/-- Sets the settings of all services. -/
def fillServices (s : Settings) (t : Toml) : Option Settings := do
  let r ← t.record? serviceNames
  serviceNames.foldlM (fun s name =>
    s.fillFrom r name fun s t => s.fillTable ["services", name] t) s

def ofToml? (t : Toml) : Option Settings := do
  let r ← t.record? ["home", "logging", "store", "services"]
  let s ← fill {} r [.home]
  let s ← s.fillFrom r "logging" fun s t => s.fillTable ["logging"] t
  let s ← s.fillFrom r "store" fun s t => s.fillTable ["store"] t
  s.fillFrom r "services" fillServices

/-- The settings of a file. -/
def ofTomlText? (text : String) : Option Settings :=
  (Toml.ofString? text).bind ofToml?

/-! ## Writing -/

/-- The lines of some settings. -/
def linesText? (s : Settings) (settings : List Setting) : Option String :=
  (settings.mapM fun (k : Setting) =>
    (k.kind.toToml? (s.get k)).map fun text => k.key ++ " = " ++ text ++ "\n").map String.join

def tableText? (s : Settings) (tables : List String) : Option String :=
  (s.linesText? (Setting.inTables tables)).map fun lines =>
    "[" ++ ".".intercalate tables ++ "]\n" ++ lines

/-- The tables in the order in which they are written. -/
def tablesInOrder : List (List String) :=
  [["logging"], ["store"]] ++ serviceNames.map fun name => ["services", name]

/-- The settings as a file, unless a number is too large for it. -/
def toTomlText? (s : Settings) : Option String := do
  let top ← s.linesText? (Setting.inTables [])
  let tables ← tablesInOrder.mapM s.tableText?
  return "\n".intercalate (top :: tables)

end Settings

end RunScheduler
