import RunScheduler.Proofs.Script
import RunScheduler.Proofs.Store.Operation

/-!
# Stores that answer requests

A store answers the requests of scripts by its operations, with fresh ids for the runs that need
one (`Store.Answers`); requests for something else are answered elsewhere and leave the store as
it is. It may serve the requests of several scripts in turn (`Store.Serves`). A request that
failed changed nothing (`Exchange.Failed`); a commit that succeeded has moved a run
(`Exchange.moved?`).
-/

namespace RunScheduler

/-- Whether a store is to answer the request. -/
def Request.isForStore : Request → Bool
  | .insertRuns .. | .findExisting .. | .commit .. | .query .. | .create .. | .listSchedulable .. =>
    true
  | _ => false

/-- The store could not do what it was asked for. -/
inductive Exchange.Failed : Exchange → Prop
  | insertRuns (deployment : String) (runs : List PlannedRun) (e : StoreError) :
      Failed ⟨.insertRuns deployment runs, Except.error e⟩
  | findExisting (deployment : String) (keys : List String) (e : StoreError) :
      Failed ⟨.findExisting deployment keys, Except.error e⟩
  | commit (id : RunId) (expected : Expected) (next : State) (e : StoreError) :
      Failed ⟨.commit id expected next, Except.error e⟩
  | query (filter : RunFilter) (e : StoreError) : Failed ⟨.query filter, Except.error e⟩
  | create (request : RunRequest) (e : StoreError) : Failed ⟨.create request, Except.error e⟩
  | listSchedulable (token : Option String) (size : Nat) (e : StoreError) :
      Failed ⟨.listSchedulable token size, Except.error e⟩

/-- The run that was moved by an exchange. -/
def Exchange.moved? : Exchange → Option Run
  | ⟨.commit _ _ _, .ok r⟩ => some r
  | _ => none

theorem Exchange.moved?_eq_some_iff {x : Exchange} {r : Run} :
    x.moved? = some r ↔ ∃ id expected next, x = ⟨.commit id expected next, Except.ok r⟩ := by
  constructor
  · intro h
    obtain ⟨request, reply⟩ := x
    cases request with
    | commit id expected next =>
      cases reply with
      | error e => cases h
      | ok moved =>
        cases h
        exact ⟨id, expected, next, rfl⟩
    | _ => cases h
  · rintro ⟨id, expected, next, rfl⟩
    rfl

namespace Store

/-- The store gives the reply, and is another one afterwards. -/
inductive Answers (s : Store) : Exchange → Store → Prop
  | insertRuns {deployment : String} {given : List (RunId × PlannedRun)}
      (hfresh : (Operation.insertRuns deployment given).Fresh s) :
      Answers s ⟨.insertRuns deployment (given.map (·.2)),
        Except.ok (s.insertRuns deployment given).2⟩ (s.insertRuns deployment given).1
  | findExisting (deployment : String) (keys : List String) :
      Answers s ⟨.findExisting deployment keys, Except.ok (s.findExisting deployment keys)⟩ s
  | commit {id : RunId} {expected : Expected} {next : State} {s' : Store} {r : Run}
      (h : s.commit id expected next = .ok (s', r)) :
      Answers s ⟨.commit id expected next, Except.ok r⟩ s'
  | commitRejected {id : RunId} {expected : Expected} {next : State} {e : StoreError}
      (h : s.commit id expected next = .error e) :
      Answers s ⟨.commit id expected next, Except.error e⟩ s
  | query (filter : RunFilter) : Answers s ⟨.query filter, Except.ok (s.query filter)⟩ s
  | create {request : RunRequest} {now : Instant} {freshId : RunId} {s' : Store} {r : Run}
      (hfresh : (Operation.create request now freshId).Fresh s)
      (h : s.create request now freshId = .ok (s', r)) :
      Answers s ⟨.create request, Except.ok r⟩ s'
  | createRejected {request : RunRequest} {now : Instant} {freshId : RunId} {e : StoreError}
      (h : s.create request now freshId = .error e) :
      Answers s ⟨.create request, Except.error e⟩ s
  | listSchedulable (token : Option String) (size : Nat) :
      Answers s ⟨.listSchedulable token size, Except.ok (s.listSchedulable token size)⟩ s
  | elsewhere {x : Exchange} (h : x.request.isForStore = false) : Answers s x s

/-- The store answers one request after another. -/
inductive Serves : Store → List Exchange → Store → Prop
  | nil (s : Store) : Serves s [] s
  | cons {s s₁ s' : Store} {x : Exchange} {course : List Exchange} (hanswer : Answers s x s₁)
      (h : Serves s₁ course s') : Serves s (x :: course) s'

variable {plans : String → PlannedRun → Prop} {s s' : Store}

theorem Answers.changes (hs : s.WellFormed) {x : Exchange} (h : Answers s x s')
    (hplans : ∀ deployment runs, x.request = .insertRuns deployment runs →
      ∀ p ∈ runs, plans deployment p) : Changes plans s s' := by
  cases h with
  | insertRuns hfresh =>
    refine changes_insertRuns (fun e he => ?_) hfresh.1 hfresh.2
    exact hplans _ _ rfl e.2 (List.mem_map_of_mem he)
  | findExisting => exact .refl
  | commit h =>
    obtain ⟨before, hget, _, hmove, rfl, s₁, hslot, rfl⟩ := change_of_commit hs h
    rw [← hs.id_eq hget] at hget
    exact .single (.move hget hmove hslot)
  | commitRejected => exact .refl
  | query => exact .refl
  | create hfresh h =>
    rcases change_of_create hfresh h with ⟨_, _, _, rfl⟩ | ⟨hborn, hnew, s₁, hslot, rfl⟩
    · exact .refl
    · exact .single (.birth hborn hnew hslot)
  | createRejected => exact .refl
  | listSchedulable => exact .refl
  | elsewhere => exact .refl

end Store

end RunScheduler
