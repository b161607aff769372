import RunScheduler.Store

/-!
# Files

Directories with settings files and stores below them, and how a path leads to one: name by name,
each place on the way being a directory. A place below which something is counts as a directory.
-/

namespace RunScheduler

/-- Why a path does not lead to what is needed. -/
inductive FileFault
  | missing
  | taken
  | notDirectory
  | isDirectory
  | invalidArgument
  | nameTooLong
  | nulCharacter
  | notText
  | notStore
deriving DecidableEq, Repr

def FileFault.message : FileFault → String
  | .missing => "No such file or directory (os error 2)"
  | .taken => "File exists (os error 17)"
  | .notDirectory => "Not a directory (os error 20)"
  | .isDirectory => "Is a directory (os error 21)"
  | .invalidArgument => "Invalid argument (os error 22)"
  | .nameTooLong => "File name too long (os error 36)"
  | .nulCharacter => "file name contained an unexpected NUL byte"
  | .notText => "stream did not contain valid UTF-8"
  | .notStore => "invalid data"

/-- What is at a place. -/
inductive File
  | directory
  /-- The device that holds nothing and keeps nothing. -/
  | emptyDevice
  | text (content : String)
  | store (content : Store)

/-- The names that lead to a place from the root. -/
abbrev Place := List String

/-- What is at places, the latest first. -/
structure Files where
  entries : List (Place × File) := []

namespace Files

/-- What is at a place. The root is a directory, and so is each place above another. -/
def get? (f : Files) (place : Place) : Option File :=
  match f.entries.lookup place with
  | some file => some file
  | none =>
    if place.isEmpty || f.entries.any (place.isPrefixOf ·.1) then some .directory else none

def insert (f : Files) (place : Place) (file : File) : Files :=
  { entries := (place, file) :: f.entries }

/-! ## Paths -/

def names (path : String) : List String :=
  path.splitOn "/"

/-- No name and a point lead nowhere. -/
def staysPut (name : String) : Bool :=
  name = "" || name = "."

/-- The path of the directory that the last name of a path is looked up in. -/
def parent (path : String) : String :=
  let before := ((names path).reverse.dropWhile staysPut).drop 1
  "/".intercalate (before.dropWhile staysPut).reverse

/-- What is wrong with a path, whatever files there are: it has fewer than 4096 bytes, and none of
them is 0. -/
def checkPath (path : String) : Except FileFault Unit :=
  if path.toList.contains '\x00' then .error .nulCharacter
  else if path.isEmpty then .error .missing
  else if 4096 ≤ path.utf8ByteSize then .error .nameTooLong
  else .ok ()

/-- Where a path begins: at the root, or in the present directory. -/
def origin (directory : Place) (path : String) : Place :=
  if path.startsWith "/" then [] else directory

/-- The place after one more name, or the present one again for no name and a point. -/
def step (place : Place) : String → Place
  | "" | "." => place
  | ".." => place.dropLast
  | name => place ++ [name]

/-- The place that names lead to; nothing need be there. -/
def walk (f : Files) (place : Place) : List String → Except FileFault Place
  | [] => .ok place
  | name :: rest =>
    match f.get? place with
    | none => .error .missing
    | some .directory =>
      if 255 < name.utf8ByteSize then .error .nameTooLong else f.walk (step place name) rest
    | some _ => .error .notDirectory

def locate (f : Files) (directory : Place) (path : String) : Except FileFault Place := do
  checkPath path
  f.walk (origin directory path) (names path)

/-! ## Reading -/

def readText (f : Files) (directory : Place) (path : String) : Except FileFault String := do
  match f.get? (← f.locate directory path) with
  | none => .error .missing
  | some .directory => .error .isDirectory
  | some .emptyDevice => .ok ""
  | some (.text content) => .ok content
  | some (.store _) => .error .notText

/-! ## Making directories -/

/-- Makes the directories that names lead through, as far as there are none. Those that were made
before a fault stay. -/
def makeDirectories (f : Files) (place : Place) : List String → Files × Except FileFault Unit
  | [] => (f, .ok ())
  | name :: rest =>
    let place := step place name
    match f.get? place with
    | none =>
      if 255 < name.utf8ByteSize then (f, .error .nameTooLong)
      else (f.insert place .directory).makeDirectories place rest
    | some .directory => f.makeDirectories place rest
    | some _ => (f, .error (if rest.isEmpty then .taken else .notDirectory))

/-- Makes the directory that a path lies in. -/
def makeParent (f : Files) (directory : Place) (path : String) : Files × Except FileFault Unit :=
  let parent := parent path
  if parent.isEmpty then (f, .ok ())
  else
    match checkPath parent with
    | .error fault => (f, .error fault)
    | .ok () =>
      f.makeDirectories (origin directory parent) ((names parent).filter (!staysPut ·))

/-! ## Stores -/

/-- The place of a file that is made if there is none. With a stroke after its last name a path
can only be that of a directory. -/
def locateNew (f : Files) (directory : Place) (path : String) : Except FileFault Place :=
  match (names path).reverse with
  | "" :: before =>
    match before.dropWhile (· = "") with
    | [] | "." :: _ | ".." :: _ => f.locate directory path
    | _ :: before => do
      checkPath path
      let _ ← f.walk (origin directory path) (before.reverse ++ ["."])
      throw .isDirectory
  | _ => f.locate directory path

/-- The place of a store and what it holds. An empty file, or none, is a store of nothing. -/
def openStore (f : Files) (directory : Place) (path : String) :
    Except FileFault (Place × Store) := do
  let place ← f.locateNew directory path
  match f.get? place with
  | none | some (.text "") => .ok (place, {})
  | some .directory => .error .isDirectory
  | some .emptyDevice => .error .invalidArgument
  | some (.text _) => .error .notStore
  | some (.store store) => .ok (place, store)

end Files

end RunScheduler
