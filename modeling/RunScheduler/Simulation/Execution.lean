import RunScheduler.Simulation.Process

/-!
# Execution of scripts in a world

A script is run until it waits or is done. Jobs that it runs side by side begin in their order,
as many at once as their limit allows, and each of the others begins when one before it is done.
Those that can go on do so one after another, each until it waits again.
-/

namespace RunScheduler.Simulation

mutual

/-- Runs a script until it waits, for so many steps at most. A wait of no length is none. -/
def proceed : (fuel : Nat) → World → {α : Type} → Script α → World × Process α
  | 0, w, _, _ => (w, .exhausted)
  | fuel + 1, w, _, script =>
    match script with
    | .done a => (w, .done a)
    | .ask (.wait ms) go =>
      if ms = 0 then proceed fuel w (go ())
      else ({ w with waits := w.waits + 1 }, .waiting ⟨w.clock + ms, w.waits⟩ (go ()))
    | .ask (.rest ms) go =>
      match w.wakeup? with
      | some wakeup => proceed fuel w (go wakeup)
      | none => ({ w with waits := w.waits + 1 }, .resting ⟨w.clock + ms, w.waits⟩ go)
    | .ask request go =>
      let (w, reply) := w.answer request
      proceed fuel w (go reply)
    | .loop s body go =>
      proceed fuel w <| (body s).bind fun
        | .inl s => .loop s body go
        | .inr b => go b
    | .together limit n jobs go =>
      let begun := min (max limit 1) n
      goOnTogether fuel w begun (.ofFn fun i => .ready (jobs i)) ((List.finRange n).take begun) go

/-- Lets a process go on that can. -/
def resume : (fuel : Nat) → World → {α : Type} → Process α → World × Process α
  | 0, w, _, _ => (w, .exhausted)
  | fuel + 1, w, _, process =>
    match process with
    | .done a => (w, .done a)
    | .ready script => proceed fuel w script
    | .waiting _ next => proceed fuel w next
    | .resting _ next => proceed fuel w (next (w.wakeup?.getD .elapsed))
    | .group begun _ jobs go =>
      let jobs := .ofFn jobs
      goOnTogether fuel w begun jobs (Jobs.due w jobs) go
    | .exhausted => (w, .exhausted)

/-- Lets jobs go on, and what follows them when all are done. -/
def goOnTogether : (fuel : Nat) → World → {β α : Type} → {n : Nat} → (begun : Nat) → Jobs β n →
    List (Fin n) → ((Fin n → β) → Script α) → World × Process α
  | 0, w, _, _, _, _, _, _, _ => (w, .exhausted)
  | fuel + 1, w, _, _, _, begun, jobs, queue, go =>
    let (w, begun, jobs) := takeTurns fuel w begun jobs queue
    match jobs.results? with
    | some results => proceed fuel w (go results)
    | none => (w, .group begun _ jobs.get go)

/-- Lets the jobs in a queue go on in turn. One that is done lets the next begin, which takes its
place at the end of the queue. -/
def takeTurns : (fuel : Nat) → World → {β : Type} → {n : Nat} → (begun : Nat) → Jobs β n →
    List (Fin n) → World × Nat × Jobs β n
  | 0, w, _, _, begun, jobs, _ => (w, begun, jobs)
  | _ + 1, w, _, _, begun, jobs, [] => (w, begun, jobs)
  | fuel + 1, w, _, n, begun, jobs, i :: queue =>
    let (w, job) := resume fuel w jobs[i]
    let jobs := jobs.set i job
    if h : job.isDone ∧ begun < n then
      takeTurns fuel w (begun + 1) jobs (queue ++ [⟨begun, h.2⟩])
    else takeTurns fuel w begun jobs queue

end

/-- Steps enough for every script that comes to an end in practice. -/
def steps : Nat := 1000000000000

/-- Lets jobs go on, at each time when one of them can, as long as it is before a time. -/
def advance {β : Type} {n : Nat} : (fuel : Nat) → World → Jobs β n → (before : Option Nat) →
    World × Jobs β n
  | 0, w, jobs, _ => (w, jobs)
  | fuel + 1, w, jobs, before =>
    match jobs.next? w with
    | none => (w, jobs)
    | some turn =>
      if before.all (turn.time < ·) then
        let w := { w with clock := max w.clock turn.time }
        let (w, _, jobs) := takeTurns steps w n jobs (jobs.due w)
        advance fuel w jobs before
      else (w, jobs)

/-- Runs a script to its end, if it comes to one. -/
def run {α : Type} (w : World) (script : Script α) : World × Option α :=
  let (w, process) := proceed steps w script
  let (w, jobs) := advance steps w (.replicate 1 process) none
  (w, jobs.toList.head?.bind (·.result?))

end RunScheduler.Simulation
