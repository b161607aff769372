import RunScheduler.Proofs.Lifecycle.Notices

/-!
# What hooks are told

Calls are made one after another on a store that others may act on in between. Every hook is told
the same, whatever the hooks answer: of each run that the store created or moved for a call, once
and in the order of these changes, and besides of each run that was asked for again while it still
was as it had been created (`hooks_told_of_calls`). So a hook cannot tell a run that was just
created from one that was there before: that each hook is told of changes alone is false
(`not_hooks_told_of_changes_alone`).

What a call tells its hooks is read off the store's last answer (`Call.filterMap_told?`); what
this answer says of the store, off the stores before and after it (`Moment.news?_eq`).
-/

namespace RunScheduler

/-- What a hook is told: a run as it is now, and the kind it was in before. -/
structure News where
  previous : Option StateKind
  run : Run
deriving DecidableEq

namespace Exchange

/-- What the hook at a place is told in an exchange. -/
def told? (place : Nat) : Exchange → Option News
  | ⟨.callHook called previous run, _⟩ => if called = place then some ⟨previous, run⟩ else none
  | _ => none

/-- What all hooks are to be told after an answer of the store. -/
def news? : Exchange → Option News
  | ⟨.create _, .ok run⟩ => if run.history.isEmpty then some ⟨none, run⟩ else none
  | ⟨.commit _ _ _, .ok run⟩ => some ⟨run.history.getLast?.map (·.kind), run⟩
  | _ => none

theorem news?_eq_none_of_not_isForStore {x : Exchange} (h : x.request.isForStore = false) :
    x.news? = none := by
  obtain ⟨request, reply⟩ := x
  cases request with
  | create | commit => cases h
  | _ => rfl

theorem news?_eq_none_of_failed {x : Exchange} (h : x.Failed) : x.news? = none := by
  cases h <;> rfl

end Exchange

/-! ### What calls tell -/

namespace Lifecycle

open Script

variable {l : Lifecycle} {c : Call} {calls : List Call} {course : List Exchange} {place : Nat}

theorem filterMap_told?_hookNotices {previous : Option StateKind} {run : Run} {names : List String}
    {answers : List (Option (List String))} {first : Nat} (hlength : answers.length = names.length)
    (hfirst : first ≤ place) (hplace : place < first + names.length) :
    (hookNotices previous run names answers first).filterMap (Exchange.told? place) =
      [⟨previous, run⟩] := by
  have hlater {names : List String} {answers : List (Option (List String))} {first : Nat}
      (hlt : place < first) :
      (hookNotices previous run names answers first).filterMap (Exchange.told? place) = [] := by
    induction names generalizing answers first with
    | nil => rfl
    | cons name names ih =>
      cases answers with
      | nil => rfl
      | cons answer answers =>
        have hrest : (hookNotices previous run names answers (first + 1)).filterMap
            (Exchange.told? place) = [] := ih (Nat.lt_succ_of_lt hlt)
        rw [hookNotices, List.filterMap_append, hrest, List.append_nil]
        cases answer <;> simp [failureNotice, Exchange.told?, Nat.ne_of_gt hlt]
  induction names generalizing answers first with
  | nil => exact absurd hplace (Nat.not_lt.mpr hfirst)
  | cons name names ih =>
    cases answers with
    | nil => cases hlength
    | cons answer answers =>
      have hsilent : (failureNotice run name answer).filterMap (Exchange.told? place) = [] := by
        cases answer <;> rfl
      rw [hookNotices, List.cons_append, List.filterMap_cons, List.filterMap_append, hsilent,
        List.nil_append]
      by_cases hhere : first = place
      · simp [Exchange.told?, hhere, hlater (Nat.lt_succ_self place)]
      · rw [List.length_cons] at hplace
        simp only [Exchange.told?, if_neg hhere]
        exact ih (Nat.succ.inj hlength) (by omega) (by omega)

theorem filterMap_told?_notices {previous : Option StateKind} {run : Run}
    {answers : List (Option (List String))} (hlength : answers.length = l.hooks.length)
    (hplace : place < l.hooks.length) :
    (l.notices previous run answers).filterMap (Exchange.told? place) = [⟨previous, run⟩] := by
  have hend : (run.endings.map fun event => (⟨.emit event, ()⟩ : Exchange)).filterMap
      (Exchange.told? place) = [] := by
    rw [List.filterMap_map]
    exact List.filterMap_eq_nil_iff.mpr fun _ _ => rfl
  rw [notices, List.filterMap_append, hend, List.append_nil,
    filterMap_told?_hookNotices hlength (Nat.zero_le place) (by omega)]

theorem Call.filterMap_told?_notices {reply : Except StoreError Run}
    {answers : List (Option (List String))} (hlength : answers.length = l.hooks.length)
    (hplace : place < l.hooks.length) :
    (c.notices l answers reply).filterMap (Exchange.told? place) =
      (c.answered reply).news?.toList := by
  cases reply with
  | error e => cases c <;> rfl
  | ok run =>
    cases c with
    | move id expected next => exact Lifecycle.filterMap_told?_notices hlength hplace
    | create request =>
      simp only [Call.notices, Call.answered, Exchange.news?]
      split_ifs
      · exact Lifecycle.filterMap_told?_notices hlength hplace
      · rfl

theorem Call.filterMap_news?_tried {reply : Except StoreError Run}
    (h : (Script.retry l.retry c.ask).Takes course reply) :
    course.filterMap Exchange.news? = (c.answered reply).news?.toList := by
  obtain ⟨tries, rfl, htries⟩ := Call.exists_tries h
  have hbefore : tries.filterMap Exchange.news? = [] := by
    refine List.filterMap_eq_nil_iff.mpr fun x hx => ?_
    rcases htries x hx with ⟨e, rfl⟩ | ⟨milliseconds, rfl⟩
    · cases c <;> rfl
    · rfl
  rw [List.filterMap_append, hbefore, List.nil_append, List.filterMap_cons]
  cases (c.answered reply).news? <;> rfl

theorem Call.filterMap_told? {result : Except TransitionError Run}
    (h : (c.script l).Takes course result) (hplace : place < l.hooks.length) :
    course.filterMap (Exchange.told? place) = course.filterMap Exchange.news? := by
  obtain ⟨tried, reply, answers, htried, hlength, rfl, -⟩ := Call.takes_iff.mp h
  have hsilent : tried.filterMap (Exchange.told? place) = [] := by
    refine List.filterMap_eq_nil_iff.mpr fun x hx => ?_
    rcases Call.of_mem_tried htried hx with ⟨reply, rfl⟩ | ⟨milliseconds, rfl⟩
    · cases c <;> rfl
    · rfl
  have hnotices : (c.notices l answers reply).filterMap Exchange.news? = [] :=
    List.filterMap_eq_nil_iff.mpr fun x hx =>
      Exchange.news?_eq_none_of_not_isForStore (Call.not_isForStore_of_mem_notices hx)
  rw [List.filterMap_append, List.filterMap_append, hsilent, hnotices, List.nil_append,
    List.append_nil, Call.filterMap_told?_notices hlength hplace, Call.filterMap_news?_tried htried]

theorem filterMap_told?_callAll {results : List (Except TransitionError Run)}
    (h : (l.callAll calls).Takes course results) (hplace : place < l.hooks.length) :
    course.filterMap (Exchange.told? place) = course.filterMap Exchange.news? := by
  induction calls generalizing course results with
  | nil => rw [h.of_done.1]; rfl
  | cons c calls ih =>
    obtain ⟨first, rest, result, later, rfl, -, hfirst, hrest⟩ := takes_callAll_cons.mp h
    rw [List.filterMap_append, List.filterMap_append, Call.filterMap_told? hfirst hplace, ih hrest]

end Lifecycle

/-! ### What the store does for calls -/

namespace Store

variable {s s' : Store}

/-- The run in which a store differs from what it was before. -/
def change? (s s' : Store) : Option News :=
  (s'.runs.values.find? fun run => decide (s.getRun run.id ≠ some run)).map
    fun run => ⟨(s.getRun run.id).map Run.kind, run⟩

theorem change?_eq_none (hs : s.WellFormed) (hsame : s'.runs = s.runs) : s.change? s' = none := by
  rw [change?, hsame, Option.map_eq_none_iff, List.find?_eq_none]
  intro run hrun
  rw [decide_eq_true_eq]
  exact fun hne => hne (hs.mem_values_iff.mp hrun)

theorem change?_eq_some {run : Run} (hs' : s'.WellFormed)
    (hget : ∀ id, s'.getRun id = if run.id = id then some run else s.getRun id)
    (hnew : s.getRun run.id ≠ some run) :
    s.change? s' = some ⟨(s.getRun run.id).map Run.kind, run⟩ := by
  have hmem : run ∈ s'.runs.values := hs'.mem_values_iff.mpr ((hget _).trans (if_pos rfl))
  rw [change?]
  cases hfound : s'.runs.values.find? fun r => decide (s.getRun r.id ≠ some r) with
  | none => exact absurd (decide_eq_true hnew) (List.find?_eq_none.mp hfound run hmem)
  | some r =>
    have hother := List.find?_some hfound
    rw [decide_eq_true_eq] at hother
    have hr := hs'.mem_values_iff.mp (List.mem_of_find?_eq_some hfound)
    rw [hget] at hr
    split_ifs at hr
    · cases hr
      rfl
    · exact absurd hr hother

end Store

/-- A step of what happens at a store, with the stores right before and right after it. -/
structure Moment where
  before : Store
  step : Step Unit
  after : Store

namespace Moment

/-- The run that the store created or moved for a call. -/
def change? (m : Moment) : Option News :=
  match m.step with
  | .answered _ ⟨.create _, _⟩ | .answered _ ⟨.commit _ _ _, _⟩ => m.before.change? m.after
  | _ => none

/-- The run that was asked for although it is there already, if it has not moved since it was
stored. -/
def repeat? (m : Moment) : Option News :=
  match m.step with
  | .answered _ ⟨.create _, .ok run⟩ =>
    if m.before.getRun run.id = some run ∧ run.history = [] then some ⟨none, run⟩ else none
  | _ => none

/-- The moments follow one another, from one store to the other. -/
inductive Follow : Store → List Moment → Store → Prop
  | nil (s : Store) : Follow s [] s
  | cons {s s₁ s' : Store} {step : Step Unit} {moments : List Moment}
      (hstep : s.Happens step s₁) (h : Follow s₁ moments s') :
      Follow s (⟨s, step, s₁⟩ :: moments) s'

variable {s s' : Store} {step : Step Unit} {moments : List Moment} {c : Lifecycle.Call}
  {reply : Except StoreError Run}

/-- What the store did as it answered a call. Either it is as it was, since it rejected the call or
knew the run that was asked for; or it has a run that it did not have so, which is the news. -/
theorem of_answered (hs : s.WellFormed)
    (h : s.Happens (.answered () (c.answered reply)) s') :
    (s' = s ∧ ((∃ e, reply = .error e) ∨
        ∃ request run, c = .create request ∧ reply = .ok run ∧ s.getRun run.id = some run)) ∨
      ∃ run, s.getRun run.id ≠ some run ∧
        (∀ id, s'.getRun id = if run.id = id then some run else s.getRun id) ∧
        (c.answered reply).news? = some ⟨(s.getRun run.id).map Run.kind, run⟩ := by
  cases h with
  | answered hanswer =>
    cases c with
    | create request =>
      cases hanswer with
      | elsewhere h => cases h
      | createRejected => exact Or.inl ⟨rfl, Or.inl ⟨_, rfl⟩⟩
      | @create _ now freshId _ run hfresh hcreate =>
        rcases Store.change_of_create hfresh hcreate with
          ⟨id, -, hget, rfl⟩ | ⟨hborn, hnew, s₁, hslot, rfl⟩
        · rw [← hs.id_eq hget] at hget
          exact Or.inl ⟨rfl, Or.inr ⟨request, run, rfl, rfl, hget⟩⟩
        · refine Or.inr ⟨run, by simp [hnew], fun id => ?_, ?_⟩
          · rw [Store.getRun_putRun, hslot.getRun_eq]
          · simp [Lifecycle.Call.answered, Exchange.news?, hborn.history, hnew]
    | move id expected next =>
      cases hanswer with
      | elsewhere h => cases h
      | commitRejected => exact Or.inl ⟨rfl, Or.inl ⟨_, rfl⟩⟩
      | @commit _ _ _ _ run hcommit =>
        obtain ⟨before, hget, -, -, rfl, s₁, hslot, rfl⟩ := Store.change_of_commit hs hcommit
        rw [← hs.id_eq hget] at hget
        have hget : s.getRun (before.enter next).id = some before := hget
        refine Or.inr ⟨before.enter next, fun heq => ?_, fun id => ?_, ?_⟩
        · rw [hget] at heq
          -- The move has made the history longer.
          have hlength := congrArg (Option.map fun r : Run => r.history.length) heq
          simp [Run.enter] at hlength
        · rw [Store.getRun_putRun, hslot.getRun_eq]
        · rw [hget]
          simp [Lifecycle.Call.answered, Exchange.news?, Run.enter, Run.kind]

theorem change?_answered :
    change? ⟨s, .answered () (c.answered reply), s'⟩ = s.change? s' := by
  cases c <;> rfl

theorem change?_eq_none_iff (hs : s.WellFormed)
    (h : s.Happens (.answered () (c.answered reply)) s') :
    change? ⟨s, .answered () (c.answered reply), s'⟩ = none ↔ s' = s := by
  rw [change?_answered]
  refine ⟨fun hnone => ?_, fun hsame => Store.change?_eq_none hs (by rw [hsame])⟩
  rcases of_answered hs h with ⟨hsame, -⟩ | ⟨run, hnew, hget, -⟩
  · exact hsame
  · rw [Store.change?_eq_some ((h.changes hs).wellFormed hs) hget hnew] at hnone
    cases hnone

theorem unchanged_of_not_isForStore {x : Exchange} (hstore : x.request.isForStore = false)
    (h : s.Happens (.answered () x) s') :
    change? ⟨s, .answered () x, s'⟩ = none ↔ s' = s := by
  have hnone : change? ⟨s, .answered () x, s'⟩ = none := by
    obtain ⟨request, reply⟩ := x
    cases request with
    | create | commit => cases hstore
    | _ => rfl
  refine iff_of_true hnone ?_
  cases h with
  | answered hanswer =>
    cases hanswer with
    | elsewhere => rfl
    | _ => cases hstore

/-- What is news in a step is the change that the store made for a call, or a run that was asked
for again. -/
theorem news?_eq (hs : s.WellFormed) (h : s.Happens step s') :
    (step.exchange? ()).bind Exchange.news? =
      (change? ⟨s, step, s'⟩).or (repeat? ⟨s, step, s'⟩) := by
  have hcall {c : Lifecycle.Call} {reply : Except StoreError Run}
      (h : s.Happens (.answered () (c.answered reply)) s') :
      (c.answered reply).news? = (s.change? s').or
        (repeat? ⟨s, .answered () (c.answered reply), s'⟩) := by
    rcases of_answered hs h with
      ⟨rfl, ⟨e, rfl⟩ | ⟨request, run, rfl, rfl, hget⟩⟩ | ⟨run, hnew, hget, hnews⟩
    · rw [Store.change?_eq_none hs rfl]
      cases c <;> rfl
    · rw [Store.change?_eq_none hs rfl]
      simp [Lifecycle.Call.answered, Exchange.news?, repeat?, hget, List.isEmpty_iff]
    · rw [hnews, Store.change?_eq_some ((h.changes hs).wellFormed hs) hget hnew, Option.some_or]
  cases step with
  | acted op out => rfl
  | failed i x =>
    cases h with
    | failed hfailed => exact Exchange.news?_eq_none_of_failed hfailed
  | answered i x =>
    obtain ⟨request, reply⟩ := x
    cases request with
    | create request => exact hcall (c := .create request) h
    | commit id expected next => exact hcall (c := .move id expected next) h
    | _ => rfl

theorem of_change? {m : Moment} {n : News} (hs' : m.after.WellFormed) (h : m.change? = some n) :
    m.after.getRun n.run.id = some n.run ∧ m.before.getRun n.run.id ≠ some n.run ∧
      n.previous = (m.before.getRun n.run.id).map Run.kind := by
  have hchange : m.before.change? m.after = some n := by
    unfold change? at h
    split at h
    · exact h
    · exact h
    · cases h
  obtain ⟨run, hfound, rfl⟩ := Option.map_eq_some_iff.mp hchange
  have hnew := List.find?_some hfound
  rw [decide_eq_true_eq] at hnew
  exact ⟨hs'.mem_values_iff.mp (List.mem_of_find?_eq_some hfound), hnew, rfl⟩

theorem of_repeat? {n : News} (hs : s.WellFormed) (h : s.Happens step s')
    (hrepeat : repeat? ⟨s, step, s'⟩ = some n) :
    s' = s ∧ s.getRun n.run.id = some n.run ∧ n.run.history = [] ∧ n.previous = none := by
  unfold repeat? at hrepeat
  split at hrepeat
  · rename_i request run hstep
    obtain rfl : step = _ := hstep
    split_ifs at hrepeat with hknown
    cases hrepeat
    refine ⟨?_, hknown.1, hknown.2, rfl⟩
    rcases of_answered (c := .create request) hs h with ⟨hsame, -⟩ | ⟨other, hnew, -, hnews⟩
    · exact hsame
    · simp only [Lifecycle.Call.answered, Exchange.news?] at hnews
      split_ifs at hnews
      obtain ⟨-, rfl⟩ := News.mk.inj (Option.some.inj hnews)
      exact absurd hknown.1 hnew
  · cases hrepeat

theorem Follow.of_append_cons {m : Moment} {later : List Moment} (hs : s.WellFormed)
    (h : Follow s (moments ++ m :: later) s') :
    m.before.WellFormed ∧ m.before.Happens m.step m.after := by
  induction moments generalizing s with
  | nil =>
    cases h with
    | cons hstep h => exact ⟨hs, hstep⟩
  | cons first moments ih =>
    cases h with
    | cons hstep h => exact ih ((hstep.changes hs).wellFormed hs) h

theorem Follow.filterMap_news? (hs : s.WellFormed) (h : Follow s moments s') :
    (Step.courseOf () (moments.map Moment.step)).filterMap Exchange.news? =
      moments.filterMap fun m => m.change?.or m.repeat? := by
  induction h with
  | nil => rfl
  | @cons s s₁ s' step moments hstep h ih =>
    have hfirst := news?_eq hs hstep
    rw [List.map_cons, Step.courseOf_cons, List.filterMap_append, List.filterMap_cons, ← hfirst,
      ih ((hstep.changes hs).wellFormed hs)]
    cases step.exchange? () with
    | none => rfl
    | some x => cases hx : x.news? <;> simp [hx]

end Moment

namespace Lifecycle

variable {l : Lifecycle} {calls : List Call} {results : List (Except TransitionError Run)}
  {moments : List Moment} {s s' : Store}

/-- **Hooks are told of every change once, and of runs that are asked for again.** Calls are made
one after another on a store that others may act on in between, that may fail any time, and with
hooks that may fail at each call. Then:

* every hook is told, in this order and each once, of the runs that the store created or moved for
  a call, and of the runs that were asked for again before they had moved;
* of the first the store has what the hook is told and had not before, and the kind that the run
  was in before is missing where the run was not there; wherever there is no such run the store is
  as it was;
* of the others the store had just what the hook is told, as a run that was just created. -/
theorem hooks_told_of_calls
    (hcalls : (l.callAll calls).Takes (Step.courseOf () (moments.map Moment.step)) results)
    (hs : s.Reachable) (hmoments : Moment.Follow s moments s') :
    (∀ place < l.hooks.length,
      (Step.courseOf () (moments.map Moment.step)).filterMap (Exchange.told? place) =
        moments.filterMap fun m => m.change?.or m.repeat?) ∧
    (∀ m ∈ moments, ∀ n, m.change? = some n → m.after.getRun n.run.id = some n.run ∧
      m.before.getRun n.run.id ≠ some n.run ∧
      n.previous = (m.before.getRun n.run.id).map Run.kind) ∧
    (∀ m ∈ moments, ∀ x, m.step = .answered () x → (m.change? = none ↔ m.after = m.before)) ∧
    (∀ m ∈ moments, ∀ n, m.repeat? = some n → m.after = m.before ∧
      m.before.getRun n.run.id = some n.run ∧ n.run.history = [] ∧ n.previous = none) := by
  have hs := hs.wellFormed
  have hat {m : Moment} (hm : m ∈ moments) :
      m.before.WellFormed ∧ m.before.Happens m.step m.after := by
    obtain ⟨before, later, rfl⟩ := List.append_of_mem hm
    exact hmoments.of_append_cons hs
  refine ⟨fun place hplace => ?_, fun m hm n hchange => ?_, fun m hm x hstep => ?_,
    fun m hm n hrepeat => ?_⟩
  · rw [filterMap_told?_callAll hcalls hplace, hmoments.filterMap_news? hs]
  · obtain ⟨hbefore, hhappens⟩ := hat hm
    exact Moment.of_change? ((hhappens.changes hbefore).wellFormed hbefore) hchange
  · obtain ⟨hbefore, hhappens⟩ := hat hm
    obtain ⟨before, step, after⟩ := m
    obtain rfl : step = .answered () x := hstep
    by_cases hstore : x.request.isForStore = true
    · obtain ⟨first, later, rfl⟩ := List.append_of_mem hm
      rw [List.map_append, List.map_cons, Step.courseOf_append_cons] at hcalls
      obtain ⟨c, reply, rfl, -⟩ := of_callAll_append_cons hcalls hstore
      exact Moment.change?_eq_none_iff hbefore hhappens
    · exact Moment.unchanged_of_not_isForStore (Bool.eq_false_iff.mpr hstore) hhappens
  · obtain ⟨hbefore, hhappens⟩ := hat hm
    exact Moment.of_repeat? hbefore hhappens hrepeat

/-- A run is asked for again before and after it was cancelled. -/
def askTwiceAndGiveUp : List Call :=
  [.create { id := some ⟨1⟩ }, .create { id := some ⟨1⟩ },
   .move ⟨1⟩ .any { kind := .cancelled, time := .epoch }, .create { id := some ⟨1⟩ }]

def momentsOfAskTwiceAndGiveUp : List Moment :=
  let asked := Store.empty.putRun askedFor
  let ended := asked.putRun givenUp
  [⟨.empty, .answered () ⟨.create { id := some ⟨1⟩ }, Except.ok askedFor⟩, asked⟩,
   ⟨asked, .answered () ⟨.callHook 0 none askedFor, none⟩, asked⟩,
   ⟨asked, .answered () ⟨.callHook 1 none askedFor, none⟩, asked⟩,
   ⟨asked, .answered () ⟨.create { id := some ⟨1⟩ }, Except.ok askedFor⟩, asked⟩,
   ⟨asked, .answered () ⟨.callHook 0 none askedFor, none⟩, asked⟩,
   ⟨asked, .answered () ⟨.callHook 1 none askedFor, none⟩, asked⟩,
   ⟨asked, .answered () ⟨.commit ⟨1⟩ .any { kind := .cancelled, time := .epoch },
     Except.ok givenUp⟩, ended⟩,
   ⟨ended, .answered () ⟨.callHook 0 (some .pending) givenUp, none⟩, ended⟩,
   ⟨ended, .answered () ⟨.callHook 1 (some .pending) givenUp, none⟩, ended⟩,
   ⟨ended, .answered () ⟨.emit (.runEnded ⟨1⟩ none .cancelled .epoch), ()⟩, ended⟩,
   ⟨ended, .answered () ⟨.create { id := some ⟨1⟩ }, Except.ok givenUp⟩, ended⟩]

theorem takes_askTwiceAndGiveUp :
    (audited.callAll askTwiceAndGiveUp).Takes
      (Step.courseOf () (momentsOfAskTwiceAndGiveUp.map Moment.step))
      [.ok askedFor, .ok askedFor, .ok givenUp, .ok givenUp] :=
  .ask (.ask (.ask (.ask (.ask (.ask (.ask (.ask (.ask (.ask (.ask (.done _)))))))))))

theorem follow_askTwiceAndGiveUp :
    Moment.Follow .empty momentsOfAskTwiceAndGiveUp
      ((Store.empty.putRun askedFor).putRun givenUp) := by
  have helsewhere {s : Store} {x : Exchange} (h : x.request.isForStore = false) :
      s.Happens (.answered () x) s := .answered (.elsewhere h)
  have hcreate {s s' : Store} {r : Run}
      (h : s.create { id := some ⟨1⟩ } .epoch ⟨1⟩ = .ok (s', r)) :
      s.Happens (.answered () ⟨.create { id := some ⟨1⟩ }, Except.ok r⟩) s' :=
    .answered (.create nofun h)
  exact .cons (hcreate rfl) <| .cons (helsewhere rfl) <| .cons (helsewhere rfl) <|
    .cons (hcreate rfl) <| .cons (helsewhere rfl) <| .cons (helsewhere rfl) <|
    .cons (.answered (.commit rfl)) <| .cons (helsewhere rfl) <| .cons (helsewhere rfl) <|
    .cons (helsewhere rfl) <| .cons (hcreate rfl) <| .nil _

/-- Both hooks are told twice that the run is there, and once that it was cancelled. -/
theorem hooks_told_of_askTwiceAndGiveUp :
    Store.empty.Reachable ∧
      (audited.callAll askTwiceAndGiveUp).Takes
        (Step.courseOf () (momentsOfAskTwiceAndGiveUp.map Moment.step))
        [.ok askedFor, .ok askedFor, .ok givenUp, .ok givenUp] ∧
      Moment.Follow .empty momentsOfAskTwiceAndGiveUp
        ((Store.empty.putRun askedFor).putRun givenUp) ∧
      ∀ place < 2,
        (Step.courseOf () (momentsOfAskTwiceAndGiveUp.map Moment.step)).filterMap
          (Exchange.told? place) =
        [⟨none, askedFor⟩, ⟨none, askedFor⟩, ⟨some .pending, givenUp⟩] := by
  refine ⟨.empty, takes_askTwiceAndGiveUp, follow_askTwiceAndGiveUp, fun place hplace => ?_⟩
  have htold := (hooks_told_of_calls takes_askTwiceAndGiveUp .empty follow_askTwiceAndGiveUp).1
  exact (htold place hplace).trans (by decide)

/-- That hooks are told of changes alone is false: asked for again before it has moved, a run is
told of a second time. -/
theorem not_hooks_told_of_changes_alone :
    ¬ ∀ (l : Lifecycle) (calls : List Call) (results : List (Except TransitionError Run))
      (moments : List Moment) (s s' : Store),
      (l.callAll calls).Takes (Step.courseOf () (moments.map Moment.step)) results →
      s.Reachable → Moment.Follow s moments s' → ∀ place < l.hooks.length,
      (Step.courseOf () (moments.map Moment.step)).filterMap (Exchange.told? place) =
        moments.filterMap Moment.change? := by
  intro h
  have htold := h audited askTwiceAndGiveUp _ momentsOfAskTwiceAndGiveUp .empty _
    takes_askTwiceAndGiveUp .empty follow_askTwiceAndGiveUp 0 (by decide)
  exact absurd htold (by decide)

end Lifecycle

end RunScheduler
