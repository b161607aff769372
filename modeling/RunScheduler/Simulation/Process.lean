import RunScheduler.Simulation.World

/-!
# Processes

A script on its way: it waits for a time, or for the jobs that it runs side by side, or it is
done. Waits are numbered as they begin; of two that are over at the same time, the one that began
first comes first.
-/

namespace RunScheduler.Simulation

/-! ## Turns -/

/-- When a process can go on, and the number of the wait that is over then. -/
structure Turn where
  time : Nat
  number : Nat
deriving DecidableEq, Repr

namespace Turn

def isBefore (a b : Turn) : Bool :=
  a.time < b.time || (a.time == b.time && a.number < b.number)

def earlier (a b : Turn) : Turn :=
  if b.isBefore a then b else a

/-- The first turn of a list. -/
def first? (turns : List Turn) : Option Turn :=
  match turns with
  | [] => none
  | t :: l => some (l.foldl earlier t)

end Turn

/-! ## Processes -/

inductive Process : Type → Type 1
  | done {α : Type} (a : α) : Process α
  /-- It has not begun. -/
  | ready {α : Type} (script : Script α) : Process α
  | waiting {α : Type} (turn : Turn) (next : Script α) : Process α
  /-- A wait that the stop signal ends. -/
  | resting {α : Type} (turn : Turn) (next : Wakeup → Script α) : Process α
  /-- It waits for jobs, of which so many have begun or are about to. -/
  | group {β α : Type} (begun n : Nat) (jobs : Fin n → Process β)
      (go : (Fin n → β) → Script α) : Process α
  /-- It has used up the steps allowed to it. -/
  | exhausted {α : Type} : Process α

namespace Process

variable {α : Type}

def result? : Process α → Option α
  | .done a => some a
  | _ => none

def isDone (p : Process α) : Bool :=
  p.result?.isSome

/-- When a process can go on. A rest is over at once when the stop signal was given. -/
def next? (w : World) : {α : Type} → Process α → Option Turn
  | _, .waiting turn _ => some turn
  | _, .resting turn _ => if w.wakeup?.isSome then some { turn with time := w.clock } else some turn
  | _, .group _ n jobs _ => Turn.first? ((List.finRange n).filterMap fun i => next? w (jobs i))
  | _, .done _ => none
  | _, .ready _ => none
  | _, .exhausted => none

end Process

/-! ## Jobs side by side -/

/-- Processes that run side by side. -/
abbrev Jobs (β : Type) (n : Nat) := Vector (Process β) n

namespace Jobs

variable {β : Type} {n : Nat}

/-- The result of each, once all are done. -/
def results? (jobs : Jobs β n) : Option (Fin n → β) :=
  if h : ∀ i : Fin n, (jobs[i].result?).isSome then some fun i => (jobs[i].result?).get (h i)
  else none

/-- When the first of them can go on. -/
def next? (w : World) (jobs : Jobs β n) : Option Turn :=
  Turn.first? (jobs.toList.filterMap (Process.next? w))

/-- Those that can go on by now, in their order. -/
def due (w : World) (jobs : Jobs β n) : List (Fin n) :=
  let turns := (List.finRange n).filterMap fun i =>
    ((Process.next? w jobs[i]).filter (·.time ≤ w.clock)).map (·, i)
  (turns.mergeSort fun a b => !b.1.isBefore a.1).map (·.2)

end Jobs

end RunScheduler.Simulation
