import RunScheduler.CommandLine.Action
import RunScheduler.CommandLine.Files
import RunScheduler.Simulation.Tasks
import RunScheduler.Store.Json
import Std.Time

/-!
# The program

Reads arguments, files, the environment and the clock, and leaves the rest to the library. The
store is one file of JSON, which is written after every change.
-/

namespace RunScheduler.Program

/-! ## Files and clocks -/

def now : IO Instant := do
  let t ← Std.Time.Timestamp.now
  let nanos := t.toNanosecondsSinceUnixEpoch.toInt
  return (Instant.of? (nanos / 1000000000) (nanos % 1000000000).toNat).getD Instant.epoch

/-- Why a file cannot be used. -/
def reason : IO.Error → String
  | .noFileOrDirectory .. => FileFault.missing.message
  | .alreadyExists .. => FileFault.taken.message
  | .inappropriateType _ 21 _ => FileFault.isDirectory.message
  | .inappropriateType .. => FileFault.notDirectory.message
  | e => e.toString

def readSettingsFile (path : String) : IO (Except SettingsError String) := do
  match ← (IO.FS.readBinFile path).toBaseIO with
  | .error e => return .error (.cannotRead path (reason e))
  | .ok bytes =>
    match String.fromUTF8? bytes with
    | some text => return .ok text
    | none => return .error (.cannotRead path FileFault.notText.message)

/-- All variables; where they cannot be listed, those that name settings. -/
def environment : IO (List (String × String)) := do
  match ← (IO.FS.readFile "/proc/self/environ").toBaseIO with
  | .ok text => return Settings.readEnvironment text
  | .error _ =>
    Setting.all.filterMapM fun k => do
      return (← IO.getEnv k.variableName).map fun value => (k.variableName, value)

def loadSettings (config : Option String) :
    IO (Except SettingsError (ResolvedSettings × List String)) := do
  let userHome ← IO.getEnv "HOME"
  let environment ← environment
  match config with
  | none => return CommandLine.settings none environment userHome
  | some path =>
    match ← readSettingsFile path with
    | .ok text => return CommandLine.settings (some text) environment userHome
    | .error e => return .error e

def writeStore (path : String) (store : Store) : IO Unit :=
  IO.FS.writeFile path store.toJson.toText

/-- What a store holds. The directory that it lies in and the store itself are made if they are not
there yet. -/
def openStore (path : String) : IO (Except CommandError Store) := do
  let parent := Files.parent path
  if !parent.isEmpty then
    if let .error e ← (IO.FS.createDirAll parent).toBaseIO then
      return .error (.cannotMakeDirectory (reason e))
  let cannotOpen (text : String) : Except CommandError Store :=
    .error (.store (.cannotOpen ("I/O error: " ++ text)))
  match ← (IO.FS.readFile path).toBaseIO with
  | .ok "" => return .ok {}
  | .ok text =>
    match (Json.ofString? text).bind Store.ofJson? with
    | some store => return .ok store
    | none => return cannotOpen FileFault.notStore.message
  | .error (.noFileOrDirectory ..) =>
    match ← (writeStore path {}).toBaseIO with
    | .ok () => return .ok {}
    | .error e => return cannotOpen (reason e)
  | .error e => return cannotOpen (reason e)

/-! ## Running the loops -/

/-- Lets the loops go on whenever they can, and keeps what they did. -/
partial def follow {n : Nat} (path : String) (started : Nat) (w : Simulation.World)
    (loops : Simulation.Jobs Unit n) : IO Unit := do
  let elapsed := (← IO.monoMsNow) - started
  let (w, loops) := Simulation.advance Simulation.steps w loops (some (elapsed + 1))
  writeStore path w.store
  for event in w.events.reverse do
    IO.eprintln event.toJson.toText
  match loops.next? w with
  | none => return
  | some turn =>
    IO.sleep (min (turn.time - elapsed) 3600000).toUInt32
    follow path started { w with events := [] } loops

def serve (r : ResolvedSettings) : IO (Except CommandError Unit) := do
  match ← openStore r.storePath, r.parts with
  | .error e, _ => return .error e
  | _, .error e => return .error (.span e)
  | .ok store, .ok parts =>
    let high ← IO.rand 0 (UInt64.size - 1)
    let low ← IO.rand 0 (UInt64.size - 1)
    let w : Simulation.World :=
      { store, start := ← now, firstId := ⟨BitVec.ofNat 64 high ++ BitVec.ofNat 64 low⟩ }
    follow r.storePath (← IO.monoMsNow) w (Simulation.Jobs.ofScripts 0 parts.loops)
    return .ok ()

/-! ## Commands -/

def perform (r : ResolvedSettings) : Command → IO (Except CommandError Unit)
  | .serve => serve r
  | .preview a => do
    match a.times r (← now) with
    | .error e => return .error e
    | .ok times =>
      IO.print (PreviewArguments.text times)
      return .ok ()
  | .deploy a => do
    match ← openStore r.storePath with
    | .error e => return .error e
    | .ok store =>
      match a.deploy store (← now) with
      | .error e => return .error e
      | .ok (store, d) =>
        writeStore r.storePath store
        IO.println d.toJson.toPrettyText
        return .ok ()

/-- The exit code: 2 if the arguments say no command, 1 if the command fails. -/
def run (args : List String) : IO UInt32 := do
  match Invocation.ofArguments? args with
  | none =>
    IO.eprintln "usage: [--config PATH] serve | deploy ID [OPTIONS] | preview [OPTIONS]"
    return 2
  | some i =>
    let outcome : Except CommandError Unit ← match ← loadSettings i.config with
      | .error e => pure (.error (.settings e))
      | .ok (r, unknown) =>
        for name in unknown do
          IO.eprintln ("ignoring unknown environment override " ++ name)
        perform r i.command
    match outcome with
    | .ok () => return 0
    | .error e =>
      IO.eprintln ("Error: " ++ e.message)
      return 1

end RunScheduler.Program

def main (args : List String) : IO UInt32 :=
  RunScheduler.Program.run args
