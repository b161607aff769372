import RunScheduler.Lifecycle
import RunScheduler.Proofs.Store.Answers

/-!
# Courses of changes to runs

A run is created or moved in two parts (`Call.script_eq`): the store is asked, again if it fails
for a passing reason, and once it has done what it was asked for, the change is made known. Which
exchanges the second part consists of is settled by what the hooks answer (`Call.notices`), so the
courses of a call are known exactly (`Call.takes_iff`).

The result of a call is what the store answered last, and only this answer may have moved a run
(`of_transition`).
-/

namespace RunScheduler

/-- The events that the state of a run asks for: one if it has ended. -/
def Run.endings (r : Run) : List Event :=
  if r.state.isTerminal then [.runEnded r.id r.deployment r.kind r.state.time] else []

/-- The exchange is about a hook: it is called, or has failed. -/
def Exchange.isOfHook : Exchange → Bool
  | ⟨.callHook .., _⟩ => true
  | ⟨.emit (.hookFailed ..), _⟩ => true
  | _ => false

namespace Lifecycle

open Script

variable {l : Lifecycle} {course : List Exchange} {previous : Option StateKind} {run : Run}

/-! ### What follows a change -/

/-- What is made known of a hook, by its answer. -/
def failureNotice (run : Run) (name : String) : Option (List String) → List Exchange
  | none => []
  | some messages => [⟨.emit (.hookFailed run.id name (chainText messages)), ()⟩]

/-- The calls of hooks with their answers, the first of which has the given place, each with what
is made known of it. -/
def hookNotices (previous : Option StateKind) (run : Run) :
    (names : List String) → (answers : List (Option (List String))) → (place : Nat) → List Exchange
  | name :: names, answer :: answers, place =>
    ⟨.callHook place previous run, answer⟩ :: failureNotice run name answer ++
      hookNotices previous run names answers (place + 1)
  | _, _, _ => []

/-- What follows a change that stands: all hooks in their order, and the end of the run. -/
def notices (l : Lifecycle) (previous : Option StateKind) (run : Run)
    (answers : List (Option (List String))) : List Exchange :=
  hookNotices previous run l.hooks answers 0 ++ run.endings.map fun event => ⟨.emit event, ()⟩

theorem isOfHook_of_mem_hookNotices {names : List String} {answers : List (Option (List String))}
    {place : Nat} {x : Exchange} (h : x ∈ hookNotices previous run names answers place) :
    x.isOfHook = true := by
  induction names generalizing answers place with
  | nil => cases h
  | cons name names ih =>
    cases answers with
    | nil => cases h
    | cons answer answers =>
      rw [hookNotices, List.cons_append, List.mem_cons, List.mem_append] at h
      rcases h with rfl | h | h
      · rfl
      · cases answer with
        | none => cases h
        | some messages =>
          rw [List.mem_singleton.mp h]
          rfl
      · exact ih h

theorem takes_failureNotice {name : String} {answer : Option (List String)} {place : Nat}
    {names : List String} {u : Unit}
    (h : (callHooks previous run names (place + 1)).Takes course u) :
    (callHooks previous run (name :: names) place).Takes
      (⟨.callHook place previous run, answer⟩ :: failureNotice run name answer ++ course) u := by
  rw [callHooks]
  cases answer with
  | none => exact .ask h
  | some messages => exact .ask (.ask h)

theorem takes_callHooks_iff {names : List String} {place : Nat} {u : Unit} :
    (callHooks previous run names place).Takes course u ↔
      ∃ answers, answers.length = names.length ∧
        course = hookNotices previous run names answers place := by
  induction names generalizing course place with
  | nil =>
    constructor
    · intro h
      exact ⟨[], rfl, h.of_done.1⟩
    · rintro ⟨_, _, rfl⟩
      exact .done ()
  | cons name names ih =>
    constructor
    · intro h
      rw [callHooks] at h
      cases h with
      | @ask _ _ _ answer rest _ h =>
        suffices hrest : ∃ later, rest = failureNotice run name answer ++ later ∧
            (callHooks previous run names (place + 1)).Takes later u by
          obtain ⟨later, rfl, hlater⟩ := hrest
          obtain ⟨answers, hlength, rfl⟩ := ih.mp hlater
          exact ⟨answer :: answers, congrArg Nat.succ hlength, rfl⟩
        cases answer with
        | none => exact ⟨rest, rfl, h⟩
        | some messages =>
          cases h with
          | ask h => exact ⟨_, rfl, h⟩
    · rintro ⟨answers, hlength, rfl⟩
      cases answers with
      | nil => cases hlength
      | cons answer answers =>
        refine takes_failureNotice (ih.mpr ⟨answers, ?_, rfl⟩)
        simpa using hlength

theorem takes_afterChange_iff {u : Unit} :
    (l.afterChange previous run).Takes course u ↔
      ∃ answers, answers.length = l.hooks.length ∧ course = l.notices previous run answers := by
  have hend {rest : List Exchange} {u : Unit} :
      (if run.state.isTerminal then
        call (.emit (.runEnded run.id run.deployment run.kind run.state.time))
      else pure ()).Takes rest u ↔ rest = run.endings.map fun event => ⟨.emit event, ()⟩ := by
    rw [Run.endings]
    split_ifs
    · exact ⟨fun h => h.of_call, fun h => h ▸ .ask (.done ())⟩
    · exact ⟨fun h => h.of_done.1, fun h => h ▸ .done ()⟩
  rw [afterChange]
  constructor
  · intro h
    obtain ⟨first, rest, _, rfl, hfirst, hrest⟩ := Takes.of_bind h
    obtain ⟨answers, hlength, rfl⟩ := takes_callHooks_iff.mp hfirst
    exact ⟨answers, hlength, by rw [hend.mp hrest, notices]⟩
  · rintro ⟨answers, hlength, rfl⟩
    exact Takes.bind (a := ()) (takes_callHooks_iff.mpr ⟨answers, hlength, rfl⟩) (hend.mpr rfl)

/-! ### Calls -/

/-- A change that is asked for. -/
inductive Call
  | create (request : RunRequest)
  | move (run : RunId) (expected : Expected) (next : State)

namespace Call

def script (l : Lifecycle) : Call → Script (Except TransitionError Run)
  | .create request => l.create request
  | .move run expected next => l.transition run expected next

/-- What the store is asked for. -/
def ask : Call → Script (Except StoreError Run)
  | .create request => Script.call (.create request)
  | .move run expected next => Script.call (.commit run expected next)

/-- The exchange with the store that has this answer. -/
def answered : Call → Except StoreError Run → Exchange
  | .create request, reply => ⟨.create request, reply⟩
  | .move run expected next, reply => ⟨.commit run expected next, reply⟩

/-- What the store's answer is followed by. A run that was created before and has moved since is
not made known again. -/
def follow (l : Lifecycle) : Call → Except StoreError Run → Script (Except TransitionError Run)
  | _, .error e => return .error (.ofStore l.retry.attempts e)
  | .create _, .ok run => do
    if run.history.isEmpty then l.afterChange none run
    return .ok run
  | .move _ _ _, .ok run => do
    l.afterChange (run.history.getLast?.map (·.kind)) run
    return .ok run

/-- The exchanges that make known what the store answered, by the answers of the hooks. -/
def notices (l : Lifecycle) (answers : List (Option (List String))) :
    Call → Except StoreError Run → List Exchange
  | _, .error _ => []
  | .create _, .ok run => if run.history.isEmpty then l.notices none run answers else []
  | .move _ _ _, .ok run => l.notices (run.history.getLast?.map (·.kind)) run answers

theorem script_eq (l : Lifecycle) (c : Call) :
    c.script l = (Script.retry l.retry c.ask).bind (c.follow l) := by
  cases c with
  | create request =>
    show l.create request = _
    rw [Lifecycle.create]
    refine congrArg (Script.bind _) (funext fun reply => ?_)
    cases reply <;> rfl
  | move id expected next =>
    show l.transition id expected next = _
    rw [transition]
    refine congrArg (Script.bind _) (funext fun reply => ?_)
    cases reply <;> rfl

theorem takes_ask_iff {c : Call} {reply : Except StoreError Run} :
    c.ask.Takes course reply ↔ course = [c.answered reply] := by
  cases c with
  | create request => exact ⟨fun h => h.of_call, fun h => h ▸ .ask (.done _)⟩
  | move id expected next => exact ⟨fun h => h.of_call, fun h => h ▸ .ask (.done _)⟩

theorem takes_follow_iff {c : Call} {reply : Except StoreError Run}
    {result : Except TransitionError Run} :
    (c.follow l reply).Takes course result ↔
      result = reply.mapError (.ofStore l.retry.attempts) ∧
        ∃ answers, answers.length = l.hooks.length ∧ course = c.notices l answers reply := by
  have hsilent {a : Except TransitionError Run} : (Script.done a).Takes course result ↔
      result = a ∧ ∃ answers : List (Option (List String)),
        answers.length = l.hooks.length ∧ course = [] := by
    constructor
    · intro h
      obtain ⟨rfl, rfl⟩ := h.of_done
      exact ⟨rfl, List.replicate l.hooks.length none, List.length_replicate, rfl⟩
    · rintro ⟨rfl, _, _, rfl⟩
      exact .done _
  have hafter {previous : Option StateKind} {run : Run} :
      ((l.afterChange previous run).bind fun _ => Script.done (Except.ok run)).Takes course result ↔
        result = .ok run ∧ ∃ answers, answers.length = l.hooks.length ∧
          course = l.notices previous run answers := by
    constructor
    · intro h
      obtain ⟨first, rest, u, rfl, hfirst, hrest⟩ := Takes.of_bind h
      obtain ⟨answers, hlength, rfl⟩ := takes_afterChange_iff.mp hfirst
      obtain ⟨rfl, rfl⟩ := hrest.of_done
      exact ⟨rfl, answers, hlength, List.append_nil _⟩
    · rintro ⟨rfl, answers, hlength, rfl⟩
      rw [← List.append_nil (l.notices _ _ _)]
      exact Takes.bind (a := ()) (takes_afterChange_iff.mpr ⟨answers, hlength, rfl⟩) (.done _)
  cases reply with
  | error e => cases c <;> exact hsilent
  | ok run =>
    cases c with
    | move id expected next => exact hafter
    | create request =>
      simp only [follow, notices]
      split_ifs
      · exact hafter
      · exact hsilent

/-- The courses of a call: the store is asked, and what it answers is made known. -/
theorem takes_iff {c : Call} {result : Except TransitionError Run} :
    (c.script l).Takes course result ↔
      ∃ tried reply answers, (Script.retry l.retry c.ask).Takes tried reply ∧
        answers.length = l.hooks.length ∧ course = tried ++ c.notices l answers reply ∧
        result = reply.mapError (.ofStore l.retry.attempts) := by
  rw [script_eq]
  constructor
  · intro h
    obtain ⟨tried, rest, reply, rfl, htried, hrest⟩ := Takes.of_bind h
    obtain ⟨hresult, answers, hlength, rfl⟩ := takes_follow_iff.mp hrest
    exact ⟨tried, reply, answers, htried, hlength, rfl, hresult⟩
  · rintro ⟨tried, reply, answers, htried, hlength, rfl, hresult⟩
    exact Takes.bind htried (takes_follow_iff.mpr ⟨hresult, answers, hlength, rfl⟩)

theorem exists_tries {c : Call} {reply : Except StoreError Run}
    (h : (Script.retry l.retry c.ask).Takes course reply) :
    ∃ tries, course = tries ++ [c.answered reply] ∧
      ∀ x ∈ tries, (∃ e, x = c.answered (.error e)) ∨
        ∃ milliseconds, x = ⟨.wait milliseconds, ()⟩ := by
  have hfailed : ∀ first e, c.ask.Takes first (.error e) →
      ∀ x ∈ first, ∃ e, x = c.answered (.error e) := by
    intro first e hfirst x hx
    rw [takes_ask_iff.mp hfirst, List.mem_singleton] at hx
    exact ⟨e, hx⟩
  obtain ⟨tries, last, rfl, htries, hlast⟩ := h.exists_tries hfailed
  exact ⟨tries, by rw [takes_ask_iff.mp hlast], htries⟩

theorem of_mem_tried {c : Call} {reply : Except StoreError Run}
    (h : (Script.retry l.retry c.ask).Takes course reply) {x : Exchange} (hx : x ∈ course) :
    (∃ reply, x = c.answered reply) ∨ ∃ milliseconds, x = ⟨.wait milliseconds, ()⟩ := by
  obtain ⟨tries, rfl, htries⟩ := exists_tries h
  rcases List.mem_append.mp hx with hx | hx
  · exact (htries x hx).imp_left fun ⟨e, heq⟩ => ⟨.error e, heq⟩
  · exact Or.inl ⟨reply, List.mem_singleton.mp hx⟩

end Call

/-! ### Single moves -/

variable {id : RunId} {expected : Expected} {next : State}

theorem not_isForStore_of_isOfHook {x : Exchange} (h : x.isOfHook = true) :
    x.request.isForStore = false := by
  obtain ⟨request, reply⟩ := x
  cases request with
  | callHook | emit => rfl
  | _ => cases h

theorem Call.not_isForStore_of_mem_notices {c : Call} {reply : Except StoreError Run}
    {answers : List (Option (List String))} {x : Exchange} (h : x ∈ c.notices l answers reply) :
    x.request.isForStore = false := by
  have hnotices {previous : Option StateKind} {run : Run}
      (h : x ∈ l.notices previous run answers) : x.request.isForStore = false := by
    rcases List.mem_append.mp h with h | h
    · exact not_isForStore_of_isOfHook (isOfHook_of_mem_hookNotices h)
    · obtain ⟨event, _, rfl⟩ := List.mem_map.mp h
      rfl
  cases reply with
  | error e => cases c <;> cases h
  | ok run =>
    cases c with
    | move id expected next => exact hnotices h
    | create request =>
      rw [notices] at h
      split_ifs at h
      · exact hnotices h
      · cases h

theorem asks_transition : Asks
    (fun request => request = .commit id expected next ∨ request.isForStore = false)
    (l.transition id expected next) := by
  intro course result htakes x hx
  obtain ⟨tried, reply, answers, htried, _, rfl, _⟩ :=
    (Call.takes_iff (c := .move id expected next)).mp htakes
  rcases List.mem_append.mp hx with hx | hx
  · rcases Call.of_mem_tried htried hx with ⟨reply, rfl⟩ | ⟨milliseconds, rfl⟩
    · exact Or.inl rfl
    · exact Or.inr rfl
  · exact Or.inr (Call.not_isForStore_of_mem_notices hx)

theorem moved?_eq_none_of_not_isForStore {x : Exchange} (h : x.request.isForStore = false) :
    x.moved? = none := by
  refine Option.eq_none_iff_forall_ne_some.mpr fun r hmoved => ?_
  obtain ⟨id, expected, next, rfl⟩ := Exchange.moved?_eq_some_iff.mp hmoved
  cases h

theorem Call.filterMap_moved?_tried {c : Call} {reply : Except StoreError Run}
    (h : (Script.retry l.retry c.ask).Takes course reply) :
    course.filterMap Exchange.moved? = (c.answered reply).moved?.toList := by
  obtain ⟨tries, rfl, htries⟩ := exists_tries h
  have hbefore : tries.filterMap Exchange.moved? = [] := by
    refine List.filterMap_eq_nil_iff.mpr fun x hx => ?_
    rcases htries x hx with ⟨e, rfl⟩ | ⟨milliseconds, rfl⟩
    · cases c <;> rfl
    · rfl
  rw [List.filterMap_append, hbefore, List.nil_append, List.filterMap_cons]
  cases (c.answered reply).moved? <;> rfl

theorem Call.filterMap_moved?_notices (c : Call) (reply : Except StoreError Run)
    (answers : List (Option (List String))) :
    (c.notices l answers reply).filterMap Exchange.moved? = [] := by
  refine List.filterMap_eq_nil_iff.mpr fun x hx => ?_
  exact moved?_eq_none_of_not_isForStore (not_isForStore_of_mem_notices hx)

theorem of_transition {result : Except TransitionError Run}
    (h : (l.transition id expected next).Takes course result) :
    ∃ reply, (⟨.commit id expected next, reply⟩ : Exchange) ∈ course ∧
      result = reply.mapError (.ofStore l.retry.attempts) ∧
      course.filterMap Exchange.moved? = reply.toOption.toList := by
  obtain ⟨tried, reply, answers, htried, _, rfl, rfl⟩ :=
    (Call.takes_iff (c := .move id expected next)).mp h
  refine ⟨reply, ?_, rfl, ?_⟩
  · obtain ⟨tries, rfl, _⟩ := Call.exists_tries htried
    exact List.mem_append_left _ (List.mem_append_right _ List.mem_cons_self)
  · rw [List.filterMap_append, Call.filterMap_moved?_tried htried, Call.filterMap_moved?_notices,
      List.append_nil]
    cases reply <;> rfl

end Lifecycle

end RunScheduler
