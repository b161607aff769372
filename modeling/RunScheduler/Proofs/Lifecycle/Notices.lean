import RunScheduler.Proofs.Lifecycle.Course
import RunScheduler.Proofs.Store.Sharing

/-!
# Notices of changes

Calls are made one after another (`Lifecycle.callAll`) on a store where others only put deployments
and plan runs. However often the store fails in between, and whatever the hooks answer, the end of
a run is made known once if the stored run has ended and not at all otherwise
(`notices_of_calls`).

Both sides of this are counted by the moves that the store made. A stored run ends by a move, and
there is none after it (`Store.Undergoes.endings_eq`); and a call makes known the end of the run
that it moved (`timely_of_callAll`). Hooks are only told of what stands already, so that leaving
their exchanges out gives what happens without them (`takes_callAll_withoutHooks`).
-/

namespace RunScheduler

/-- The event by which an exchange makes known that the run with this id has ended. -/
def Exchange.ending? (id : RunId) : Exchange → Option Event
  | ⟨.emit (.runEnded run deployment kind time), _⟩ =>
    if run = id then some (.runEnded run deployment kind time) else none
  | _ => none

/-- The end of the run with this id, if the run is that one and has ended. -/
def Run.endingsFor (id : RunId) (r : Run) : List Event :=
  if r.id = id then r.endings else []

theorem Run.endings_eq_nil {r : Run} (h : r.state.isTerminal = false) : r.endings = [] := by
  rw [endings, h]
  rfl

/-! ### Ends of stored runs -/

namespace Step

variable {ι : Type}

def isOfHook : Step ι → Bool
  | .answered _ x => x.isOfHook
  | .failed _ x => x.isOfHook
  | .acted .. => false

/-- Whoever else acts on the store leaves stored runs alone: deployments are put and runs are
planned. -/
def SparesRuns (step : Step ι) : Prop :=
  ∀ op out, step = .acted op out →
    (∃ d, op = .putDeployment d) ∨ ∃ deployment given, op = .insertRuns deployment given

theorem courseOf_filter_isOfHook (steps : List (Step Unit)) :
    courseOf () (steps.filter fun step => !step.isOfHook) =
      (courseOf () steps).filter fun x => !x.isOfHook := by
  rw [courseOf, courseOf, List.filterMap_filter, List.filter_filterMap]
  congr 1
  funext step
  cases step with
  | answered _ x | failed _ x => rfl
  | acted op out => rfl

end Step

namespace Store

variable {s s' : Store} {step : Step Unit} {steps : List (Step Unit)}

/-- The end of the run that is stored under an id, if it has ended. -/
def endings (s : Store) (id : RunId) : List Event :=
  (s.getRun id).elim [] Run.endings

theorem endings_of_getRun {id : RunId} {r : Run} (h : s.getRun id = some r) :
    s.endings id = r.endings := by
  rw [endings, h]
  rfl

/-- A stored run ends by a move that the store was asked for. -/
theorem Happens.endings_eq (hs : s.WellFormed) (h : Happens s step s') (hothers : step.SparesRuns)
    (id : RunId) :
    s'.endings id = s.endings id ++
      ((step.exchange? ()).toList.filterMap Exchange.moved?).flatMap (Run.endingsFor id) := by
  by_cases hmoves : ∃ expected next r, step = .answered () ⟨.commit id expected next, .ok r⟩
  · obtain ⟨expected, next, r, rfl⟩ := hmoves
    obtain ⟨before, hbefore, _, hmove, rfl, hmoved⟩ := h.of_commit hs
    have hid : before.id = id := hs.id_eq hbefore
    have hgoes : before.state.isTerminal = false := by
      refine Bool.eq_false_iff.mpr fun hended => ?_
      have hnext := (StateKind.next_eq_nil_iff before.kind).mpr hended
      rw [StateKind.canBecome, hnext] at hmove
      cases hmove
    rw [endings_of_getRun hbefore, Run.endings_eq_nil hgoes, endings_of_getRun hmoved]
    show (before.enter next).endings = Run.endingsFor id (before.enter next) ++ []
    rw [List.append_nil]
    exact (if_pos hid).symm
  · have hnone : ((step.exchange? ()).toList.filterMap Exchange.moved?).flatMap
        (Run.endingsFor id) = [] := by
      refine List.flatMap_eq_nil_iff.mpr fun r hr => ?_
      obtain ⟨x, hx, hmoved⟩ := List.mem_filterMap.mp hr
      obtain ⟨other, expected, next, rfl⟩ := Exchange.moved?_eq_some_iff.mp hmoved
      rcases Step.exchange?_eq_some_iff.mp (Option.mem_toList.mp hx) with rfl | rfl
      · obtain ⟨before, hbefore, _, _, rfl, _⟩ := h.of_commit hs
        refine if_neg fun heq => hmoves ⟨expected, next, before.enter next, ?_⟩
        have hid : before.id = other := hs.id_eq hbefore
        have heq : before.id = id := heq
        rw [← hid, heq]
      · cases h with
        | failed h => cases h
    rw [hnone, List.append_nil]
    cases hget : s.getRun id with
    | some r =>
      rcases h.getRun hs hget with hsame | ⟨expected, next, hstep, _⟩
      · rw [endings_of_getRun hsame, endings_of_getRun hget]
      · cases hstep with
        | answered => exact absurd ⟨expected, next, _, rfl⟩ hmoves
        | acted =>
          rcases hothers _ _ rfl with ⟨d, heq⟩ | ⟨deployment, given, heq⟩ <;> cases heq
    | none =>
      rw [endings, endings, hget]
      cases hget' : s'.getRun id with
      | none => rfl
      | some r => exact Run.endings_eq_nil (h.getRun_of_none hs hget hget')

theorem Undergoes.endings_eq (hs : s.WellFormed) (h : Undergoes s steps s')
    (hothers : ∀ step ∈ steps, step.SparesRuns) (id : RunId) :
    s'.endings id = s.endings id ++
      ((Step.courseOf () steps).filterMap Exchange.moved?).flatMap (Run.endingsFor id) := by
  induction h with
  | nil => exact (List.append_nil _).symm
  | @cons s s₁ s' step steps hstep h ih =>
    have hfirst := hstep.endings_eq hs (hothers step List.mem_cons_self) id
    have hrest := ih ((hstep.changes hs).wellFormed hs) fun step hmem =>
      hothers step (List.mem_cons_of_mem _ hmem)
    rw [hrest, hfirst, List.append_assoc, Step.courseOf_cons, List.filterMap_append,
      List.flatMap_append]

theorem Undergoes.filter_isOfHook (h : Undergoes s steps s') :
    Undergoes s (steps.filter fun step => !step.isOfHook) s' := by
  induction h with
  | nil => exact .nil _
  | @cons s s₁ s' step steps hstep h ih =>
    rw [List.filter_cons]
    split_ifs with hhook
    · exact .cons hstep ih
    · have hsame : s₁ = s := by
        cases hstep with
        | answered hanswer =>
          cases hanswer with
          | elsewhere => rfl
          | _ => exact absurd rfl hhook
        | failed => rfl
        | acted => exact absurd rfl hhook
      rw [← hsame]
      exact ih

end Store

/-! ### Sequences of calls -/

namespace Lifecycle

open Script

variable {l : Lifecycle} {c : Call} {calls : List Call} {course : List Exchange}

/-- Makes calls one after another. -/
def callAll (l : Lifecycle) : List Call → Script (List (Except TransitionError Run))
  | [] => return []
  | c :: calls => do
    let result ← c.script l
    let results ← l.callAll calls
    return result :: results

theorem takes_callAll_cons {results : List (Except TransitionError Run)} :
    (l.callAll (c :: calls)).Takes course results ↔
      ∃ first rest result later, course = first ++ rest ∧ results = result :: later ∧
        (c.script l).Takes first result ∧ (l.callAll calls).Takes rest later := by
  constructor
  · intro h
    obtain ⟨first, rest, result, rfl, hfirst, hrest⟩ := Takes.of_bind h
    obtain ⟨rest, last, later, rfl, hlater, hlast⟩ := Takes.of_bind hrest
    obtain ⟨rfl, rfl⟩ := hlast.of_done
    exact ⟨first, rest, result, later, by rw [List.append_nil], rfl, hfirst, hlater⟩
  · rintro ⟨first, rest, result, later, rfl, rfl, hfirst, hrest⟩
    refine Takes.bind hfirst ?_
    rw [← List.append_nil rest]
    exact Takes.bind hrest (.done _)

/-! ### What calls make known -/

theorem filterMap_ending?_hookNotices {id : RunId} {previous : Option StateKind} {run : Run}
    {names : List String} {answers : List (Option (List String))} {place : Nat} :
    (hookNotices previous run names answers place).filterMap (Exchange.ending? id) = [] := by
  refine List.filterMap_eq_nil_iff.mpr fun x hx => ?_
  have hhook := isOfHook_of_mem_hookNotices hx
  obtain ⟨request, reply⟩ := x
  cases request with
  | emit event =>
    cases event with
    | hookFailed => rfl
    | _ => cases hhook
  | _ => rfl

theorem filterMap_ending?_notices (id : RunId) (previous : Option StateKind) (run : Run)
    (answers : List (Option (List String))) :
    (l.notices previous run answers).filterMap (Exchange.ending? id) = run.endingsFor id := by
  rw [notices, List.filterMap_append, filterMap_ending?_hookNotices, Run.endingsFor, Run.endings]
  by_cases hended : run.state.isTerminal = true
  · rw [if_pos hended]
    by_cases hid : run.id = id
    · simp [Exchange.ending?, hid]
    · simp [Exchange.ending?, hid]
  · rw [if_neg hended, ite_self]
    rfl

/-- No request for a run was answered with a run that ended without a move. -/
def CreatesUnended (course : List Exchange) : Prop :=
  ∀ request r, ⟨.create request, Except.ok r⟩ ∈ course → r.history = [] → r.state.isTerminal = false

/-- Of the runs that the store moved in a course, those that ended are made known to have, in the
order of the moves. If something follows the course, some may not be made known yet. -/
def Timely (id : RunId) (course after : List Exchange) : Prop :=
  ∃ due, (course.filterMap Exchange.moved?).flatMap (Run.endingsFor id) =
    course.filterMap (Exchange.ending? id) ++ due ∧ (after = [] → due = [])

theorem Call.filterMap_ending?_tried (id : RunId) {reply : Except StoreError Run}
    (h : (Script.retry l.retry c.ask).Takes course reply) :
    course.filterMap (Exchange.ending? id) = [] := by
  refine List.filterMap_eq_nil_iff.mpr fun x hx => ?_
  rcases Call.of_mem_tried h hx with ⟨reply, rfl⟩ | ⟨milliseconds, rfl⟩
  · cases c <;> rfl
  · rfl

theorem Call.filterMap_ending?_notices (id : RunId) {reply : Except StoreError Run}
    (answers : List (Option (List String))) (h : (Script.retry l.retry c.ask).Takes course reply)
    (hborn : CreatesUnended course) :
    (c.notices l answers reply).filterMap (Exchange.ending? id) =
      (course.filterMap Exchange.moved?).flatMap (Run.endingsFor id) := by
  rw [Call.filterMap_moved?_tried h]
  cases reply with
  | error e => cases c <;> rfl
  | ok run =>
    cases c with
    | move other expected next =>
      have hmoved := Lifecycle.filterMap_ending?_notices (l := l) id
        (run.history.getLast?.map (·.kind)) run answers
      exact hmoved.trans (List.append_nil _).symm
    | create request =>
      rw [Call.notices]
      split_ifs with hnew
      · obtain ⟨tries, rfl, _⟩ := Call.exists_tries h
        have hgoes := hborn request run (List.mem_append_right _ List.mem_cons_self)
          (List.isEmpty_iff.mp hnew)
        rw [Lifecycle.filterMap_ending?_notices, Run.endingsFor, Run.endings_eq_nil hgoes, ite_self]
        rfl
      · rfl

theorem Call.timely (id : RunId) {after : List Exchange} {result : Except TransitionError Run}
    (h : (c.script l).Takes (course ++ after) result) (hborn : CreatesUnended (course ++ after)) :
    Timely id course after := by
  obtain ⟨tried, reply, answers, htried, _, heq, _⟩ := Call.takes_iff.mp h
  have hnotices := Call.filterMap_ending?_notices id answers htried
    fun request r hmem => hborn request r (heq ▸ List.mem_append_left _ hmem)
  have hsilent := Call.filterMap_ending?_tried id htried
  rcases List.append_eq_append_iff.mp heq with ⟨rest, rfl, rfl⟩ | ⟨told, rfl, hrest⟩
  · -- Up to the middle of the tries nothing is made known.
    rw [List.filterMap_append, List.append_eq_nil_iff] at hsilent
    refine ⟨_, by rw [hsilent.1, List.nil_append], fun hnil => ?_⟩
    rw [List.append_eq_nil_iff] at hnil
    rw [hnil.1, List.append_nil, hnil.2] at hnotices
    exact hnotices.symm
  · refine ⟨after.filterMap (Exchange.ending? id), ?_, fun hnil => by rw [hnil]; rfl⟩
    have hmoved := Call.filterMap_moved?_notices (l := l) c reply answers
    rw [hrest, List.filterMap_append] at hnotices hmoved
    rw [List.filterMap_append, List.filterMap_append, hsilent, List.nil_append,
      (List.append_eq_nil_iff.mp hmoved).1, List.append_nil, hnotices]

theorem timely_of_callAll (id : RunId) {after : List Exchange}
    {results : List (Except TransitionError Run)}
    (h : (l.callAll calls).Takes (course ++ after) results)
    (hborn : CreatesUnended (course ++ after)) : Timely id course after := by
  induction calls generalizing course results with
  | nil =>
    have hnil := (List.append_eq_nil_iff.mp h.of_done.1).1
    rw [hnil]
    exact ⟨[], rfl, fun _ => rfl⟩
  | cons c calls ih =>
    obtain ⟨first, rest, result, later, heq, _, hfirst, hrest⟩ := takes_callAll_cons.mp h
    rw [heq] at hborn
    have hborn₁ : CreatesUnended first := fun request r hmem =>
      hborn request r (List.mem_append_left _ hmem)
    have hborn₂ : CreatesUnended rest := fun request r hmem =>
      hborn request r (List.mem_append_right _ hmem)
    rcases List.append_eq_append_iff.mp heq with ⟨middle, rfl, rfl⟩ | ⟨told, rfl, rfl⟩
    · obtain ⟨due, hdue, hend⟩ := Call.timely id hfirst hborn₁
      exact ⟨due, hdue, fun hnil => hend (List.append_eq_nil_iff.mp hnil).1⟩
    · rw [← List.append_nil first] at hfirst hborn₁
      obtain ⟨none, hfull, hend⟩ := Call.timely id hfirst hborn₁
      rw [hend rfl, List.append_nil] at hfull
      obtain ⟨due, hdue, hend⟩ := ih hrest hborn₂
      refine ⟨due, ?_, hend⟩
      simp only [List.filterMap_append, List.flatMap_append, hfull, hdue, List.append_assoc]

/-! ### Calls without hooks -/

/-- Changes made with no hook being told. -/
def withoutHooks (l : Lifecycle) : Lifecycle := { l with hooks := [] }

theorem filter_isOfHook_hookNotices {previous : Option StateKind} {run : Run} {names : List String}
    {answers : List (Option (List String))} {place : Nat} :
    (hookNotices previous run names answers place).filter (fun x => !x.isOfHook) = [] := by
  refine List.filter_eq_nil_iff.mpr fun x hx => ?_
  rw [isOfHook_of_mem_hookNotices hx]
  decide

theorem filter_isOfHook_notices {previous : Option StateKind} {run : Run}
    {answers : List (Option (List String))} :
    (l.notices previous run answers).filter (fun x => !x.isOfHook) =
      l.withoutHooks.notices previous run [] := by
  rw [notices, List.filter_append, filter_isOfHook_hookNotices, List.nil_append]
  refine List.filter_eq_self.mpr fun x hx => ?_
  obtain ⟨event, hevent, rfl⟩ := List.mem_map.mp hx
  rw [Run.endings] at hevent
  split_ifs at hevent
  · rw [List.mem_singleton.mp hevent]
    rfl
  · cases hevent

theorem Call.filter_isOfHook_notices {reply : Except StoreError Run}
    {answers : List (Option (List String))} :
    (c.notices l answers reply).filter (fun x => !x.isOfHook) =
      c.notices l.withoutHooks [] reply := by
  cases reply with
  | error e => cases c <;> rfl
  | ok run =>
    cases c with
    | move => exact Lifecycle.filter_isOfHook_notices
    | create request =>
      rw [Call.notices, Call.notices]
      split_ifs
      · exact Lifecycle.filter_isOfHook_notices
      · rfl

theorem Call.takes_withoutHooks {result : Except TransitionError Run}
    (h : (c.script l).Takes course result) :
    (c.script l.withoutHooks).Takes (course.filter fun x => !x.isOfHook) result := by
  obtain ⟨tried, reply, answers, htried, _, rfl, rfl⟩ := Call.takes_iff.mp h
  refine Call.takes_iff.mpr ⟨tried, reply, [], htried, rfl, ?_, rfl⟩
  rw [List.filter_append, Call.filter_isOfHook_notices]
  congr 1
  refine List.filter_eq_self.mpr fun x hx => ?_
  rcases Call.of_mem_tried htried hx with ⟨reply, rfl⟩ | ⟨milliseconds, rfl⟩
  · cases c <;> rfl
  · rfl

theorem takes_callAll_withoutHooks {results : List (Except TransitionError Run)}
    (h : (l.callAll calls).Takes course results) :
    (l.withoutHooks.callAll calls).Takes (course.filter fun x => !x.isOfHook) results := by
  induction calls generalizing course results with
  | nil =>
    obtain ⟨rfl, rfl⟩ := h.of_done
    exact .done _
  | cons c calls ih =>
    obtain ⟨first, rest, result, later, rfl, rfl, hfirst, hrest⟩ := takes_callAll_cons.mp h
    rw [List.filter_append]
    exact takes_callAll_cons.mpr ⟨_, _, result, later, rfl, rfl,
      Call.takes_withoutHooks hfirst, ih hrest⟩

/-! ### What follows an answer of the store -/

theorem Call.of_append_cons {before after : List Exchange} {x : Exchange}
    {result : Except TransitionError Run} (h : (c.script l).Takes (before ++ x :: after) result)
    (hstore : x.request.isForStore = true) :
    ∃ reply, x = c.answered reply ∧ ∀ run, reply = .ok run →
      ∃ answers, answers.length = l.hooks.length ∧ after = c.notices l answers reply := by
  obtain ⟨tried, reply, answers, htried, hlength, heq, _⟩ := Call.takes_iff.mp h
  obtain ⟨tries, rfl, htries⟩ := Call.exists_tries htried
  rw [List.append_assoc, List.singleton_append] at heq
  rcases List.append_eq_append_iff.mp heq with ⟨rest, rfl, hrest⟩ | ⟨rest, rfl, hrest⟩
  · rcases List.cons_eq_append_iff.mp hrest with ⟨rfl, hlast⟩ | ⟨rest, rfl, rfl⟩
    · cases hlast
      exact ⟨reply, rfl, fun run _ => ⟨answers, hlength, rfl⟩⟩
    · rcases htries x (by simp) with ⟨e, rfl⟩ | ⟨milliseconds, rfl⟩
      · exact ⟨.error e, rfl, fun run hrun => by cases hrun⟩
      · cases hstore
  · rcases List.cons_eq_append_iff.mp hrest with ⟨rfl, hlast⟩ | ⟨rest, rfl, hnotices⟩
    · cases hlast
      exact ⟨reply, rfl, fun run _ => ⟨answers, hlength, rfl⟩⟩
    · have hmem : x ∈ c.notices l answers reply := by
        rw [hnotices]
        exact List.mem_append_right _ List.mem_cons_self
      rw [Call.not_isForStore_of_mem_notices hmem] at hstore
      cases hstore

theorem of_callAll_append_cons {before after : List Exchange} {x : Exchange}
    {results : List (Except TransitionError Run)}
    (h : (l.callAll calls).Takes (before ++ x :: after) results)
    (hstore : x.request.isForStore = true) :
    ∃ (c : Call) (reply : Except StoreError Run), x = c.answered reply ∧ ∀ run, reply = .ok run →
      ∃ answers later, answers.length = l.hooks.length ∧
        after = c.notices l answers reply ++ later := by
  induction calls generalizing before results with
  | nil => exact absurd h.of_done.1 (by simp)
  | cons c calls ih =>
    obtain ⟨first, rest, result, _, heq, _, hfirst, hrest⟩ := takes_callAll_cons.mp h
    rcases List.append_eq_append_iff.mp heq with ⟨middle, rfl, hmiddle⟩ | ⟨middle, rfl, rfl⟩
    · rcases List.cons_eq_append_iff.mp hmiddle with ⟨rfl, rfl⟩ | ⟨told, rfl, rfl⟩
      · have hrest : (l.callAll calls).Takes ([] ++ x :: after) _ := hrest
        exact ih hrest
      · obtain ⟨reply, rfl, htold⟩ := Call.of_append_cons hfirst hstore
        refine ⟨c, reply, rfl, fun run hrun => ?_⟩
        obtain ⟨answers, hlength, rfl⟩ := htold run hrun
        exact ⟨answers, rest, hlength, rfl⟩
    · exact ih hrest

/-- The store changes a run as it answers a call. What makes this known is told of the run as it
is then, and of the kind it was in before. -/
theorem Call.of_getRun_ne {s s' : Store} (hs : s.WellFormed) {reply : Except StoreError Run}
    (h : s.Answers (c.answered reply) s') {id : RunId} (hne : s'.getRun id ≠ s.getRun id) :
    ∃ run, reply = .ok run ∧ s'.getRun id = some run ∧ ∀ answers,
      c.notices l answers reply = l.notices ((s.getRun id).map Run.kind) run answers := by
  cases c with
  | create request =>
    cases h with
    | createRejected | elsewhere => exact absurd rfl hne
    | create hfresh h =>
      rcases Store.change_of_create hfresh h with ⟨_, _, _, rfl⟩ | ⟨hborn, hnew, s₁, hslot, rfl⟩
      · exact absurd rfl hne
      · rw [Store.getRun_putRun, hslot.getRun_eq] at hne ⊢
        split_ifs at hne ⊢ with hid
        · refine ⟨_, rfl, rfl, fun answers => ?_⟩
          rw [Call.notices, hborn.history, ← hid, hnew]
          rfl
        · exact absurd rfl hne
  | move other expected next =>
    cases h with
    | commitRejected | elsewhere => exact absurd rfl hne
    | commit h =>
      obtain ⟨before, hbefore, _, _, rfl, s₁, hslot, rfl⟩ := Store.change_of_commit hs h
      rw [Store.getRun_putRun, hslot.getRun_eq] at hne ⊢
      split_ifs at hne ⊢ with hid
      · refine ⟨_, rfl, rfl, fun answers => ?_⟩
        have hid : before.id = id := hid
        rw [hs.id_eq hbefore] at hid
        rw [Call.notices, ← hid, hbefore]
        simp [Run.enter, Run.kind]
      · exact absurd rfl hne

end Lifecycle

/-! ### Notices and stored runs -/

namespace Store

variable {s : Store} {steps : List (Step Unit)}

theorem Undergoes.createsUnended (h : Undergoes empty steps s) :
    Lifecycle.CreatesUnended (Step.courseOf () steps) := by
  intro request r hmem hnew
  obtain ⟨first, rest, rfl⟩ := List.append_of_mem (h.answered_of_mem_courseOf hmem nofun)
  obtain ⟨s₁, s₂, hfirst, hstep, _⟩ := h.of_append_cons
  suffices hfollows : r.FollowsTable from hfollows.not_isTerminal hnew
  cases hstep with
  | answered hanswer =>
    cases hanswer with
    | elsewhere h => cases h
    | create hfresh h =>
      rcases change_of_create hfresh h with ⟨id, _, hget, _⟩ | ⟨hborn, _⟩
      · exact (hfirst.reachable .empty).followsTable id r hget
      · exact hborn.followsTable

end Store

namespace Lifecycle

open Store (Undergoes)

variable {l : Lifecycle} {calls : List Call} {results : List (Except TransitionError Run)}
  {steps : List (Step Unit)} {s : Store}

/-- **Changes are made known once, and hooks change nothing.** Calls are made one after another on
a store that is empty at first. Others put deployments and plan runs in between, the store may fail
any time, and each hook may fail at each call. Then:

* after the calls the end of a run has been made known once if the stored run has ended, with its
  deployment, kind and time, and not at all if it has not; in between this is never ahead of what
  is stored;
* the calls have the same results, and lead to the same store, if there are no hooks;
* whenever the store changes a run for a call, what follows is that all hooks are called in their
  order, each that fails is made known to have, and then the end of the run is if it has ended. -/
theorem notices_of_calls (hcalls : (l.callAll calls).Takes (Step.courseOf () steps) results)
    (hsteps : Undergoes .empty steps s) (hothers : ∀ step ∈ steps, step.SparesRuns) :
    (∀ id, (Step.courseOf () steps).filterMap (Exchange.ending? id) = s.endings id) ∧
    (∀ before after s₁, steps = before ++ after → Undergoes .empty before s₁ → ∀ id,
      (Step.courseOf () before).filterMap (Exchange.ending? id) <+: s₁.endings id) ∧
    ((l.withoutHooks.callAll calls).Takes
        (Step.courseOf () (steps.filter fun step => !step.isOfHook)) results ∧
      Undergoes .empty (steps.filter fun step => !step.isOfHook) s) ∧
    (∀ before x after s₁ s₂, steps = before ++ .answered () x :: after →
      Undergoes .empty before s₁ → s₁.Answers x s₂ → ∀ id, s₂.getRun id ≠ s₁.getRun id →
      ∃ run answers later, s₂.getRun id = some run ∧ answers.length = l.hooks.length ∧
        Step.courseOf () after =
          l.notices ((s₁.getRun id).map Run.kind) run answers ++ later) := by
  have hborn := hsteps.createsUnended
  have htimely {before after : List (Step Unit)} {s₁ : Store} (hsplit : steps = before ++ after)
      (hbefore : Undergoes .empty before s₁) (id : RunId) :
      ∃ due, s₁.endings id = (Step.courseOf () before).filterMap (Exchange.ending? id) ++ due ∧
        (after = [] → due = []) := by
    rw [hsplit, Step.courseOf_append] at hcalls hborn
    obtain ⟨due, hdue, hend⟩ := timely_of_callAll id hcalls hborn
    have hendings := hbefore.endings_eq .empty (fun step hmem =>
      hothers step (hsplit ▸ List.mem_append_left _ hmem)) id
    exact ⟨due, hendings.trans hdue, fun hnil => hend (by rw [hnil]; rfl)⟩
  refine ⟨fun id => ?_, fun before after s₁ hsplit hbefore id => ?_, ⟨?_, hsteps.filter_isOfHook⟩,
    fun before x after s₁ s₂ hsplit hbefore hanswer id hne => ?_⟩
  · obtain ⟨due, hdue, hend⟩ := htimely (List.append_nil steps).symm hsteps id
    rw [hdue, hend rfl, List.append_nil]
  · obtain ⟨due, hdue, _⟩ := htimely hsplit hbefore id
    exact ⟨due, hdue.symm⟩
  · rw [Step.courseOf_filter_isOfHook]
    exact takes_callAll_withoutHooks hcalls
  · have hstore : x.request.isForStore = true := by
      cases hanswer with
      | elsewhere => exact absurd rfl hne
      | _ => rfl
    rw [hsplit, Step.courseOf_append_cons] at hcalls
    obtain ⟨c, reply, rfl, htold⟩ := of_callAll_append_cons hcalls hstore
    have hs₁ := hbefore.wellFormed .empty
    obtain ⟨run, rfl, hget, hnotices⟩ := Call.of_getRun_ne (l := l) hs₁ hanswer hne
    obtain ⟨answers, later, hlength, hafter⟩ := htold run rfl
    exact ⟨run, answers, later, hget, hlength, by rw [hafter, hnotices]⟩

/-- A run that was just asked for. -/
def askedFor : Run where
  id := ⟨1⟩
  name := RunRequest.defaultName none ⟨1⟩
  scheduledTime := .epoch
  state := { kind := .pending, time := .epoch }
  createdAt := .epoch
  updatedAt := .epoch

def givenUp : Run :=
  askedFor.enter { kind := .cancelled, time := .epoch }

/-- Two hooks are told of changes. -/
def audited : Lifecycle := { hooks := ["audit", "mail"] }

/-- A run is asked for and cancelled. -/
def askAndGiveUp : List Call :=
  [.create { id := some ⟨1⟩ }, .move ⟨1⟩ .any { kind := .cancelled, time := .epoch }]

/-- The store fails once, and so does the first hook when it is told of the end. -/
def stepsOfAskAndGiveUp : List (Step Unit) :=
  [.answered () ⟨.create { id := some ⟨1⟩ }, Except.ok askedFor⟩,
   .answered () ⟨.callHook 0 none askedFor, none⟩,
   .answered () ⟨.callHook 1 none askedFor, none⟩,
   .acted (.insertRuns "etl" []) (.inserted 0),
   .failed () ⟨.commit ⟨1⟩ .any { kind := .cancelled, time := .epoch },
     Except.error (.unavailable "")⟩,
   .answered () ⟨.wait 100, ()⟩,
   .answered () ⟨.commit ⟨1⟩ .any { kind := .cancelled, time := .epoch }, Except.ok givenUp⟩,
   .answered () ⟨.callHook 0 (some .pending) givenUp, some ["down"]⟩,
   .answered () ⟨.emit (.hookFailed ⟨1⟩ "audit" (chainText ["down"])), ()⟩,
   .answered () ⟨.callHook 1 (some .pending) givenUp, none⟩,
   .answered () ⟨.emit (.runEnded ⟨1⟩ none .cancelled .epoch), ()⟩]

theorem takes_askAndGiveUp :
    (audited.callAll askAndGiveUp).Takes (Step.courseOf () stepsOfAskAndGiveUp)
      [.ok askedFor, .ok givenUp] :=
  .ask (.ask (.ask (.ask (.ask (.ask (.ask (.ask (.ask (.ask (.done _))))))))))

theorem notices_of_askAndGiveUp :
    ∃ s, (audited.callAll askAndGiveUp).Takes (Step.courseOf () stepsOfAskAndGiveUp)
        [.ok askedFor, .ok givenUp] ∧
      Undergoes .empty stepsOfAskAndGiveUp s ∧
      (∀ step ∈ stepsOfAskAndGiveUp, step.SparesRuns) ∧
      (Step.courseOf () stepsOfAskAndGiveUp).filterMap (Exchange.ending? ⟨1⟩) =
        [.runEnded ⟨1⟩ none .cancelled .epoch] := by
  have helsewhere {s : Store} {x : Exchange} (h : x.request.isForStore = false) :
      s.Happens (.answered () x) s := .answered (.elsewhere h)
  have hfresh : (Operation.create { id := some ⟨1⟩ } .epoch ⟨1⟩).Fresh .empty := nofun
  have hasked : Store.empty.Answers ⟨.create { id := some ⟨1⟩ }, Except.ok askedFor⟩
      (Store.empty.putRun askedFor) := .create hfresh rfl
  have hcommit : ((Store.empty.putRun askedFor).insertRuns "etl" []).1.Answers
      ⟨.commit ⟨1⟩ .any { kind := .cancelled, time := .epoch }, Except.ok givenUp⟩
      ((Store.empty.putRun askedFor).putRun givenUp) := .commit rfl
  have hsteps : Undergoes .empty stepsOfAskAndGiveUp
      ((Store.empty.putRun askedFor).putRun givenUp) :=
    .cons (.answered hasked) <| .cons (helsewhere rfl) <| .cons (helsewhere rfl) <|
      .cons (.acted ⟨List.nodup_nil, nofun⟩) <| .cons (.failed (.commit _ _ _ _)) <|
      .cons (helsewhere rfl) <| .cons (.answered hcommit) <| .cons (helsewhere rfl) <|
      .cons (helsewhere rfl) <| .cons (helsewhere rfl) <| .cons (helsewhere rfl) <| .nil _
  have hothers : ∀ step ∈ stepsOfAskAndGiveUp, step.SparesRuns := by
    intro step hmem op out hstep
    subst hstep
    simp only [stepsOfAskAndGiveUp, List.mem_cons, reduceCtorEq, List.not_mem_nil, false_or,
      or_false, Step.acted.injEq] at hmem
    exact Or.inr ⟨_, _, hmem.1⟩
  have hknown := (notices_of_calls takes_askAndGiveUp hsteps hothers).1 ⟨1⟩
  exact ⟨_, takes_askAndGiveUp, hsteps, hothers, hknown.trans rfl⟩

end Lifecycle

end RunScheduler
