import RunScheduler.Json.Reader

/-!
# Reading a record from JSON text

Of an object only the members that are fields are read. The others are passed over: they have to
be JSON, but neither the depth of their nesting nor the size of their numbers matters, and their
strings may hold unpaired surrogates.
-/

namespace RunScheduler.Json

/-! ## Passing over values -/

/-- The rest of a text after a string whose opening quote is passed. -/
def skipChars : List Char → Option (List Char)
  | [] => none
  | '"' :: rest => some rest
  | '\\' :: 'u' :: a :: b :: c :: d :: rest =>
    if (readUnit [a, b, c, d]).isSome then skipChars rest else none
  | '\\' :: c :: rest => if "\"\\/bfnrt".toList.contains c then skipChars rest else none
  | c :: rest => if c.toNat < 0x20 then none else skipChars rest

mutual

/-- The rest of a text after a value. The first argument bounds the length. -/
def skipValue : Nat → List Char → Option (List Char)
  | 0, _ => none
  | fuel + 1, s =>
    match skipSpace s with
    | [] => none
    | '"' :: rest => skipChars rest
    | '[' :: rest =>
      match skipSpace rest with
      | ']' :: rest => some rest
      | rest => skipItems fuel rest
    | '{' :: rest =>
      match skipSpace rest with
      | '}' :: rest => some rest
      | rest => skipMembers fuel rest
    | 'n' :: 'u' :: 'l' :: 'l' :: rest => some rest
    | 't' :: 'r' :: 'u' :: 'e' :: rest => some rest
    | 'f' :: 'a' :: 'l' :: 's' :: 'e' :: rest => some rest
    | s => (readNumeral s).map (·.2)

/-- The rest of a text after the items of an array, at least one. -/
def skipItems : Nat → List Char → Option (List Char)
  | 0, _ => none
  | fuel + 1, s =>
    match (skipValue fuel s).map skipSpace with
    | some (',' :: rest) => skipItems fuel rest
    | some (']' :: rest) => some rest
    | _ => none

/-- The rest of a text after the members of an object, at least one. -/
def skipMembers : Nat → List Char → Option (List Char)
  | 0, _ => none
  | fuel + 1, s =>
    match skipSpace s with
    | '"' :: rest =>
      match (skipChars rest).map skipSpace with
      | some (':' :: rest) =>
        match (skipValue fuel rest).map skipSpace with
        | some (',' :: rest) => skipMembers fuel rest
        | some ('}' :: rest) => some rest
        | _ => none
      | _ => none
    | _ => none

end

/-! ## Fields -/

/-- The value of a member, if it is a field. -/
def readField (names : List String) (name : String) (fuel : Nat) (s : List Char) :
    Option (List (String × Json) × List Char) :=
  if names.contains name then (readValue fuel (maxDepth - 1) s).map fun (j, r) => ([(name, j)], r)
  else (skipValue fuel s).map fun r => ([], r)

/-- The members of an object that are fields, up to its end, at least one being there. The first
argument bounds the length. -/
def readFields (names : List String) :
    Nat → List Char → Option (List (String × Json) × List Char)
  | 0, _ => none
  | fuel + 1, s =>
    match skipSpace s with
    | '"' :: rest =>
      match readChars (rest.length + 1) [] rest with
      | none => none
      | some (name, rest) =>
        match skipSpace rest with
        | ':' :: rest =>
          match readField names (String.ofList name) fuel rest with
          | none => none
          | some (found, rest) =>
            match skipSpace rest with
            | ',' :: rest => (readFields names fuel rest).map fun (ms, r) => (found ++ ms, r)
            | '}' :: rest => some (found, rest)
            | _ => none
        | _ => none
    | _ => none

/-- Reads a text that holds one value. Of an object only the members with these names are kept. -/
def fieldsOfText? (names : List String) (s : List Char) : Option Json :=
  match skipSpace s with
  | '{' :: rest =>
    match skipSpace rest with
    | '}' :: rest => if (skipSpace rest).isEmpty then some (.object []) else none
    | rest =>
      match readFields names (2 * s.length + 2) rest with
      | some (members, rest) => if (skipSpace rest).isEmpty then some (.object members) else none
      | none => none
  | _ => ofText? s

end RunScheduler.Json
