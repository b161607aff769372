import RunScheduler.Run.State
import RunScheduler.RunId

/-!
# Errors of the store

Why an operation on stored runs fails, and which failures may pass if the operation is tried
again.
-/

namespace RunScheduler

/-- The wording of a move that is not allowed; a run that does not exist yet has no kind to
come from. -/
def moveText (from? : Option StateKind) (target : StateKind) : String :=
  (match from? with
    | some k => k.name
    | none => "(new)") ++ " -> " ++ target.name

inductive StoreError
  | cannotOpen (text : String)
  | transaction (text : String)
  | table (text : String)
  | read (text : String)
  | write (text : String)
  | encode (text : String)
  | decode (text : String)
  | runNotFound (run : RunId)
  | illegalMove (run : RunId) (from? : Option StateKind) (target : StateKind)
  | concurrencyLimit (deployment : String) (limit : UInt32)
  | unavailable (text : String)
deriving DecidableEq

namespace StoreError

/-- Whether the same operation may succeed later. -/
def isTransient : StoreError → Bool
  | .unavailable _ | .transaction _ | .read _ | .write _ => true
  | _ => false

def message : StoreError → String
  | .cannotOpen text => "failed to open database: " ++ text
  | .transaction text => "transaction error: " ++ text
  | .table text => "table error: " ++ text
  | .read text => "read error: " ++ text
  | .write text => "write error: " ++ text
  | .encode text => "serialization error: " ++ text
  | .decode text => "deserialization error: " ++ text
  | .runNotFound run => "run not found: " ++ run.toString
  | .illegalMove run from? target =>
    "illegal transition for run " ++ run.toString ++ ": " ++ moveText from? target
  | .concurrencyLimit deployment limit =>
    "deployment " ++ deployment ++ " already has " ++
      String.ofList (Text.natText limit.toNat) ++ " running run(s)"
  | .unavailable text => "store unavailable: " ++ text

end StoreError

end RunScheduler
