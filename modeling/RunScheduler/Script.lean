import RunScheduler.Event
import RunScheduler.Retry
import RunScheduler.Store

/-!
# Scripts

A script is what a pass or a loop does, written without the store and the clock it does it with:
it asks for one thing after another and goes on with each reply. Loops that nothing bounds from
inside are a form of script, and so are scripts that run side by side. What a script means is
up to whoever answers its requests: one store alone, or one that others change in between.
-/

namespace RunScheduler

/-- Where the scheduler's loop is. -/
inductive Phase
  | idle | paging | draining | sleeping
deriving DecidableEq, Repr

/-- How a rest between two passes ends. -/
inductive Wakeup
  | elapsed
  /-- The stop signal changed. -/
  | signalled
  /-- Nobody is left who could give the stop signal. -/
  | abandoned
deriving DecidableEq, Repr

inductive Request
  | insertRuns (deployment : String) (runs : List PlannedRun)
  | findExisting (deployment : String) (keys : List String)
  | commit (run : RunId) (expected : Expected) (next : State)
  | query (filter : RunFilter)
  | create (request : RunRequest)
  | listSchedulable (token : Option String) (size : Nat)
  | emit (event : Event)
  /-- Calls the hook at a place in the list of hooks, after a change that stands. -/
  | callHook (place : Nat) (previous : Option StateKind) (run : Run)
  | setPhase (phase : Phase)
  | readClock
  | stopRequested
  | wait (milliseconds : Nat)
  /-- A wait that the stop signal ends. -/
  | rest (milliseconds : Nat)

/-- What a request is answered with. A hook that fails gives the messages of its error, the
outermost first. -/
def Request.Reply : Request → Type
  | .insertRuns .. => Except StoreError Nat
  | .findExisting .. => Except StoreError (List String)
  | .commit .. => Except StoreError Run
  | .query .. => Except StoreError (List Run)
  | .create .. => Except StoreError Run
  | .listSchedulable .. => Except StoreError Store.Page
  | .emit .. => Unit
  | .callHook .. => Option (List String)
  | .setPhase .. => Unit
  | .readClock => Instant
  | .stopRequested => Bool
  | .wait .. => Unit
  | .rest .. => Wakeup

inductive Script : Type → Type 1
  | done {α : Type} (a : α) : Script α
  | ask {α : Type} (request : Request) (go : request.Reply → Script α) : Script α
  /-- Repeats a body from a state on until it gives a result in place of a next state. -/
  | loop {σ β α : Type} (s : σ) (body : σ → Script (σ ⊕ β)) (go : β → Script α) : Script α
  /-- Runs jobs side by side, at most `limit` at once. -/
  | together {β α : Type} (limit n : Nat) (jobs : Fin n → Script β)
      (go : (Fin n → β) → Script α) : Script α

namespace Script

variable {α β : Type}

def bind : {α β : Type} → Script α → (α → Script β) → Script β
  | _, _, .done a, f => f a
  | _, _, .ask request go, f => .ask request fun r => (go r).bind f
  | _, _, .loop s body go, f => .loop s body fun b => (go b).bind f
  | _, _, .together limit n jobs go, f => .together limit n jobs fun r => (go r).bind f

instance : Monad Script where
  pure := .done
  bind := bind

/-- One request and its reply. -/
def call (request : Request) : Script request.Reply :=
  .ask request .done

/-- Repeats a body until it gives a result. -/
def repeatFrom {σ : Type} (s : σ) (body : σ → Script (σ ⊕ β)) : Script β :=
  .loop s body .done

/-- Runs the jobs of a list side by side and gives their results in the order of the list. -/
def all (limit : Nat) (jobs : List (Script β)) : Script (List β) :=
  .together limit jobs.length (fun i => jobs.get i) fun results => .done (List.ofFn results)

def wait (delay : Duration) : Script Unit :=
  call (.wait delay)

def stopRequested : Script Bool :=
  call .stopRequested

/-- Tries a script by a policy. -/
def retry (policy : RetryPolicy) (script : Script (Except StoreError α)) :
    Script (Except StoreError α) :=
  policy.retry wait script

end Script

end RunScheduler
