import RunScheduler.Text.Cut
import RunScheduler.Toml.Scalar
import RunScheduler.Toml.Table

/-!
# Reading TOML

A document is a list of statements, one a line: a key with its value, or a header, which says
what table the keys after it belong to.
-/

namespace RunScheduler.Toml

/-! ## Keys -/

def isBare (c : Char) : Bool :=
  c.isAlphanum || c == '-' || c == '_'

/-- One part of a key: bare, or a string on one line. -/
def readKeyPart : List Char → Option (String × List Char)
  | '"' :: rest => (readQuoted ('"' :: rest)).map fun (cs, r) => (String.ofList cs, r)
  | '\'' :: rest => (readQuoted ('\'' :: rest)).map fun (cs, r) => (String.ofList cs, r)
  | s =>
    let name := s.takeWhile isBare
    if name.isEmpty then none else some (String.ofList name, s.drop name.length)

/-- The parts of a key with points between them and spaces around. The first argument bounds the
number of parts. -/
def readParts : Nat → List Char → Option (List String × List Char)
  | 0, _ => none
  | fuel + 1, s => do
    let (part, s) ← readKeyPart (skipSpace s)
    match skipSpace s with
    | '.' :: rest =>
      let (parts, s) ← readParts fuel rest
      return (part :: parts, s)
    | s => return ([part], s)

/-- The most parts of a key. -/
def maxParts : Nat := 79

def readKey (s : List Char) : Option (Path × List Char) := do
  let (parts, s) ← readParts maxParts s
  let key ← parts.getLast?
  return (⟨parts.dropLast, key⟩, s)

/-! ## Spaces, comments and line ends -/

/-- What follows the end of a line, or of the text. -/
def readLineEnd : List Char → Option (List Char)
  | [] => some []
  | s => afterNewline? s

/-- A comment goes on to the end of the line. -/
def skipComment : List Char → List Char
  | '#' :: rest => rest.dropWhile isPlain
  | s => s

/-- What follows a line on which nothing but a comment is left. -/
def readLineRest (s : List Char) : Option (List Char) :=
  readLineEnd (skipComment (skipSpace s))

/-- Spaces, comments and line breaks inside an array. The first argument bounds the length. -/
def skipLines : Nat → List Char → List Char
  | 0, s => s
  | fuel + 1, s =>
    match afterNewline? (skipComment (skipSpace s)) with
    | some rest => skipLines fuel rest
    | none => skipSpace s

/-! ## Values -/

/-- How deep arrays and tables in braces may lie in each other. -/
def maxDepth : Nat := 79

mutual

/-- A value. The first argument bounds the length, the second the nesting. -/
def readValue : Nat → Nat → List Char → Option (Toml × List Char)
  | 0, _, _ => none
  | fuel + 1, depth, s =>
    match s with
    | [] => none
    | '"' :: _ | '\'' :: _ => (readString s).map fun (cs, r) => (.string (String.ofList cs), r)
    | '[' :: rest =>
      match depth with
      | 0 => none
      | depth + 1 => (readItems fuel depth rest).map fun (items, r) => (.array items, r)
    | '{' :: rest =>
      match depth with
      | 0 => none
      | depth + 1 =>
        match skipSpace rest with
        | '}' :: rest => some (.table .inline [], rest)
        | rest =>
          (readPairs fuel depth ⟨.inline, []⟩ rest).map fun (node, r) => (node.toToml, r)
    | 't' :: 'r' :: 'u' :: 'e' :: rest => some (.boolean true, rest)
    | 'f' :: 'a' :: 'l' :: 's' :: 'e' :: rest => some (.boolean false, rest)
    | 'i' :: 'n' :: 'f' :: rest => some (.real, rest)
    | 'n' :: 'a' :: 'n' :: rest => some (.real, rest)
    | s => readNumeric s

/-- The items of an array up to its end; a comma may follow the last. -/
def readItems : Nat → Nat → List Char → Option (List Toml × List Char)
  | 0, _, _ => none
  | fuel + 1, depth, s =>
    match skipLines (s.length + 1) s with
    | ']' :: rest => some ([], rest)
    | s =>
      match readValue fuel depth s with
      | none => none
      | some (t, rest) =>
        match skipLines (rest.length + 1) rest with
        | ',' :: rest => (readItems fuel depth rest).map fun (ts, r) => (t :: ts, r)
        | ']' :: rest => some ([t], rest)
        | _ => none

/-- The keys and values in braces up to their end, at least one. -/
def readPairs : Nat → Nat → Node → List Char → Option (Node × List Char)
  | 0, _, _, _ => none
  | fuel + 1, depth, node, s =>
    match readKey s with
    | some (path, '=' :: rest) =>
      match readValue fuel depth (skipSpace rest) with
      | none => none
      | some (t, rest) =>
        match node.assign path t with
        | none => none
        | some node =>
          match skipSpace rest with
          | ',' :: rest => readPairs fuel depth node rest
          | '}' :: rest => some (node, rest)
          | _ => none
    | _ => none

end

/-! ## Documents -/

/-- What has been read of a document, and the table that keys belong to. -/
structure Draft where
  root : Node := ⟨.header, []⟩
  current : List String := []

/-- Sets a key of the current table. -/
def Draft.assign (d : Draft) (path : Path) (value : Toml) : Option Draft :=
  (Node.within false d.current d.root fun table => table.assign path value).map fun root =>
    { d with root }

/-- The key in the brackets of a header, and what follows them. -/
def readHeader (closing : List Char) (s : List Char) : Option (Path × List Char) := do
  let (path, s) ← readKey s
  let s ← Text.after? closing s
  return (path, s)

/-- One statement, and what follows its line. -/
def readStatement (d : Draft) : List Char → Option (Draft × List Char)
  | '[' :: '[' :: rest => do
    let (path, s) ← readHeader [']', ']'] rest
    let s ← readLineRest s
    let root ← d.root.addTable path
    return ({ root, current := path.parents ++ [path.key] }, s)
  | '[' :: rest => do
    let (path, s) ← readHeader [']'] rest
    let s ← readLineRest s
    let root ← d.root.openTable path
    return ({ root, current := path.parents ++ [path.key] }, s)
  | s =>
    match readKey s with
    | some (path, '=' :: rest) => do
      let (t, s) ← readValue (2 * rest.length + 2) maxDepth (skipSpace rest)
      let s ← readLineRest s
      let d ← d.assign path t
      return (d, s)
    | _ => none

/-- The statements of a document. The first argument bounds their number. -/
def readStatements : Nat → Draft → List Char → Option Draft
  | 0, _, _ => none
  | fuel + 1, d, s =>
    match skipSpace s with
    | [] => some d
    | '#' :: rest => (readLineRest ('#' :: rest)).bind (readStatements fuel d)
    | '\n' :: rest => readStatements fuel d rest
    | '\r' :: '\n' :: rest => readStatements fuel d rest
    | s =>
      match readStatement d s with
      | none => none
      | some (d, rest) => readStatements fuel d rest

/-- Reads a document, which may begin with a byte order mark. -/
def ofText? (s : List Char) : Option Toml :=
  let body := (Text.after? ['\ufeff'] s).getD s
  (readStatements (body.length + 1) {} body).map fun d => d.root.toToml

def ofString? (s : String) : Option Toml :=
  ofText? s.toList

end RunScheduler.Toml
