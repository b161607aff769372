import RunScheduler.Store.Error

/-!
# Errors of changes to runs

What a caller is told when a run could not be created or moved.
-/

namespace RunScheduler

inductive TransitionError
  | illegalMove (run : RunId) (from? : Option StateKind) (target : StateKind)
  | runNotFound (run : RunId)
  | concurrencyLimit (deployment : String) (limit : UInt32)
  /-- The store failed for a passing reason in every try. -/
  | storeUnavailable (attempts : Nat) (source : StoreError)
  | store (source : StoreError)
deriving DecidableEq

namespace TransitionError

/-- What an error of the store means for a change that was tried so many times at most. -/
def ofStore (attempts : Nat) : StoreError → TransitionError
  | .illegalMove run from? target => .illegalMove run from? target
  | .concurrencyLimit deployment limit => .concurrencyLimit deployment limit
  | .runNotFound run => .runNotFound run
  | e => if e.isTransient then .storeUnavailable attempts e else .store e

/-- Whether the run was not as expected, or the move is not in the table. -/
def isIllegal : TransitionError → Bool
  | .illegalMove .. => true
  | _ => false

def message : TransitionError → String
  | .illegalMove run from? target =>
    "illegal transition for run " ++ run.toString ++ ": " ++ moveText from? target
  | .runNotFound run => "run not found: " ++ run.toString
  | .concurrencyLimit deployment limit =>
    "deployment " ++ deployment ++ " is at its concurrency limit of " ++
      String.ofList (Text.natText limit.toNat)
  | .storeUnavailable attempts source =>
    "store unavailable after " ++ String.ofList (Text.natText attempts) ++ " attempt(s): " ++
      source.message
  | .store source => "store error: " ++ source.message

theorem isIllegal_ofStore (attempts : Nat) (e : StoreError) :
    (ofStore attempts e).isIllegal = true ↔
      ∃ run from? target, e = .illegalMove run from? target := by
  cases e <;> simp [ofStore, isIllegal, StoreError.isTransient]

end TransitionError

end RunScheduler
