import RunScheduler.CommandLine.Action
import RunScheduler.CommandLine.Files

/-!
# A simulated machine

A machine on which commands are carried out one after another. It keeps the files that they leave
behind, and its clock shows a later second to each command.
-/

namespace RunScheduler.Simulation

structure Machine where
  files : Files := {}
  /-- The user's home directory, where commands run. -/
  home : String
  /-- What the clock shows to the first command. -/
  start : Instant
  /-- What the clock has shown, the latest first. -/
  readings : List Instant := []

namespace Machine

def homePlace (m : Machine) : Place :=
  (Files.names m.home).filter (· ≠ "")

/-- A machine on which there is nothing yet but a home directory and the empty device. -/
def ofHome (home : String) (start : Instant) : Machine :=
  let m : Machine := { home, start }
  { m with files := { entries := [(m.homePlace, .directory), (["dev", "null"], .emptyDevice)] } }

/-- Writes a file in the home directory. -/
def write (m : Machine) (name text : String) : Machine :=
  { m with files := m.files.insert (m.homePlace ++ [name]) (.text text) }

def readClock (m : Machine) : Machine × Instant :=
  let now := (m.start.addSeconds? m.readings.length).getD m.start
  ({ m with readings := now :: m.readings }, now)

/-- The settings that a command is given. Nobody is told of variables that name none. -/
def settings (m : Machine) (config : Option String) (environment : List (String × String)) :
    Except CommandError ResolvedSettings := do
  let text ← match config with
    | none => pure none
    | some path =>
      match m.files.readText m.homePlace path with
      | .ok text => pure (some text)
      | .error fault => throw (.settings (.cannotRead path fault.message))
  let userHome := (environment.reverse.lookup "HOME").getD m.home
  let (resolved, _) ← (CommandLine.settings text environment userHome).mapError .settings
  return resolved

/-- The place of a store and what it holds. The directory that it lies in and the store itself are
made if they are not there yet; a directory stays when the store cannot be opened. -/
def openStore (m : Machine) (path : String) : Machine × Except CommandError (Place × Store) :=
  match m.files.makeParent m.homePlace path with
  | (files, .error fault) => ({ m with files }, .error (.cannotMakeDirectory fault.message))
  | (files, .ok ()) =>
    match files.openStore m.homePlace path with
    | .error fault =>
      ({ m with files }, .error (.store (.cannotOpen ("I/O error: " ++ fault.message))))
    | .ok (place, store) =>
      ({ m with files := files.insert place (.store store) }, .ok (place, store))

def deploy (m : Machine) (r : ResolvedSettings) (a : DeployArguments) :
    Machine × Except CommandError String :=
  match m.openStore r.storePath with
  | (m, .error e) => (m, .error e)
  | (m, .ok (place, store)) =>
    let (m, now) := m.readClock
    match a.deploy store now with
    | .error e => (m, .error e)
    | .ok (store, d) =>
      ({ m with files := m.files.insert place (.store store) },
       .ok (d.toJson.toPrettyText ++ "\n"))

/-- Carries out a command, and gives what it prints. -/
def perform (m : Machine) (i : Invocation) (environment : List (String × String)) :
    Machine × Except CommandError String :=
  match m.settings i.config environment with
  | .error e => (m, .error e)
  | .ok r =>
    match i.command with
    | .serve => (m, .ok "")
    | .preview a =>
      let (m, now) := m.readClock
      (m, (a.times r now).map PreviewArguments.text)
    | .deploy a => m.deploy r a

end Machine

end RunScheduler.Simulation
