import RunScheduler.Settings
import RunScheduler.Settings.Error
import RunScheduler.Text.Blank
import RunScheduler.Text.Cut

/-!
# Resolution of settings

Settings are used once they are checked and the paths in them are made definite: a tilde at the
beginning of a path stands for the user's home directory, and the path of the store may name the
base directory by a mark. Main fact: no setting that has to be positive is zero afterwards.
-/

namespace RunScheduler

open Text

/-- Settings that were checked, with definite paths. -/
structure ResolvedSettings where
  settings : Settings
  home : String
  storePath : String
deriving DecidableEq, Repr

namespace Settings

/-! ## Checks -/

/-- The settings that have to be positive, in the order in which they are checked. -/
def positive : List Setting :=
  [.storeRetryAttempts, .schedulerLoop, .schedulerDeploymentBatch, .schedulerInsertBatch,
   .schedulerConcurrency, .lateRunsLoop, .lateRunsBatch, .pausesLoop, .pausesBatch,
   .cleanupLoop, .cleanupBatch, .schedulerMaxRuns, .schedulerMaxAhead]

/-- The texts that have to hold more than white space, in the order in which they are checked. -/
def nonempty : List Setting :=
  [.loggingLevel, .storePath]

def isZero : (k : Setting.Kind) → k.Value → Bool
  | .count, v => decide (UInt32.toNat v = 0)
  | .number, v => decide (UInt64.toNat v = 0)
  | _, _ => false

def isBlankText : (k : Setting.Kind) → k.Value → Bool
  | .text, v => isAllBlank (String.toList v)
  | _, _ => false

/-- What is wrong with the settings, if anything is. -/
def fault? (s : Settings) : Option SettingsError :=
  match positive.find? fun k => isZero k.kind (s.get k) with
  | some k => some (.invalid k.dottedName "must be greater than zero")
  | none =>
    match nonempty.find? fun k => isBlankText k.kind (s.get k) with
    | some k => some (.invalid k.dottedName "must not be empty")
    | none => none

/-! ## Paths -/

/-- A relative path below a directory. -/
def joinPath (directory path : List Char) : List Char :=
  if directory.isEmpty ∨ directory.getLast? = some '/' then directory ++ path
  else directory ++ '/' :: path

/-- The path with the user's home directory in place of a tilde, which stands alone or before a
slash. -/
def expandTilde (path : String) (userHome : Option String) : Except SettingsError String :=
  let expand (rest : List Char) : Except SettingsError String :=
    match userHome with
    | none =>
      .error (.invalid Setting.home.dottedName
        ("cannot expand \x60" ++ path ++ "\x60 without a user home directory"))
    | some home =>
      match rest.dropWhile (· == '/') with
      | [] => .ok home
      | rest => .ok (String.ofList (joinPath home.toList rest))
  match path.toList with
  | ['~'] => expand []
  | '~' :: '/' :: rest => expand rest
  | _ => .ok path

/-! ## Resolution -/

/-- Checks the settings and makes their paths definite. -/
def resolve (s : Settings) (userHome : Option String) : Except SettingsError ResolvedSettings :=
  match s.fault? with
  | some e => .error e
  | none => do
    let home ← expandTilde s.home userHome
    let path := String.ofList (replaceAll homeMark.toList home.toList s.store.path.toList)
    let storePath ← expandTilde path userHome
    return { settings := s, home, storePath }

theorem fault?_of_resolve {s : Settings} {userHome : Option String} {r : ResolvedSettings}
    (h : s.resolve userHome = .ok r) : s.fault? = none := by
  unfold resolve at h
  split at h
  · cases h
  · assumption

theorem settings_of_resolve {s : Settings} {userHome : Option String} {r : ResolvedSettings}
    (h : s.resolve userHome = .ok r) : r.settings = s := by
  unfold resolve at h
  split at h
  · cases h
  · cases hh : expandTilde s.home userHome with
    | error e => simp [hh, bind, Except.bind] at h
    | ok home =>
      simp only [hh, bind, Except.bind] at h
      split at h
      · cases h
      · simp only [pure, Except.pure, Except.ok.injEq] at h
        rw [← h]

/-- A setting that has to be positive is positive once the settings are resolved. -/
theorem isZero_of_resolve {s : Settings} {userHome : Option String} {r : ResolvedSettings}
    (h : s.resolve userHome = .ok r) {k : Setting} (hk : k ∈ positive) :
    isZero k.kind (r.settings.get k) = false := by
  rw [settings_of_resolve h]
  have hf := fault?_of_resolve h
  unfold fault? at hf
  split at hf
  · cases hf
  · rename_i hnone
    simpa using List.find?_eq_none.1 hnone k hk

end Settings

end RunScheduler
