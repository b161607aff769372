import RunScheduler.Text.Quoted

/-!
# Errors of settings

Why the program cannot be told what it was told.
-/

namespace RunScheduler

inductive SettingsError
  | cannotRead (path reason : String)
  /-- The text of a file is faulty, or holds a value of another type than a setting has. -/
  | parse (reason : String)
  | environment (name value reason : String)
  | invalid (setting reason : String)
deriving DecidableEq, Repr

namespace SettingsError

def message : SettingsError → String
  | .cannotRead path reason => "failed to read " ++ path ++ ": " ++ reason
  | .parse reason => "failed to parse settings: " ++ reason
  | .environment name value reason =>
    "invalid value " ++ Text.quoted value ++ " for " ++ name ++ ": " ++ reason
  | .invalid setting reason => "invalid setting " ++ setting ++ ": " ++ reason

end SettingsError

end RunScheduler
