import RunScheduler.Proofs.Store.Answers
import RunScheduler.Proofs.Store.Histories

/-!
# Shared stores

Scripts share a store with each other and with clients of whom nothing is known. What happens at
the store is a sequence of steps (`Store.Undergoes`): it answers a request of one of the scripts,
fails to, or is acted on by somebody else. What one script exchanges in all is read off the steps
(`Step.courseOf`), in whatever way the others come in between.

A stored run stays as it is but for the steps that move it (`Happens.getRun`,
`Undergoes.getRun_of_unmoved`), and what it becomes is a continuation of what it was
(`Undergoes.growsInto`).
-/

namespace RunScheduler

/-! ### Steps -/

/-- What happens at a store that scripts share with others. -/
inductive Step (ι : Type)
  /-- The store answers one of the scripts. -/
  | answered (i : ι) (x : Exchange)
  /-- The store fails to do what one of the scripts asks for. -/
  | failed (i : ι) (x : Exchange)
  /-- Somebody else acts on the store, and is told the outcome. -/
  | acted (op : Operation) (out : Outcome)

namespace Step

variable {ι : Type}

/-- What a script exchanges in a step. -/
def exchange? [DecidableEq ι] (i : ι) : Step ι → Option Exchange
  | .answered j x => if j = i then some x else none
  | .failed j x => if j = i then some x else none
  | .acted .. => none

/-- What one of the scripts exchanges in the course of all steps. -/
def courseOf [DecidableEq ι] (i : ι) (steps : List (Step ι)) : List Exchange :=
  steps.filterMap (exchange? i)

/-- The step moves a run, whoever asks for it. -/
inductive Moves (id : RunId) (expected : Expected) (next : State) (r : Run) : Step ι → Prop
  | answered (i : ι) :
      Moves id expected next r (.answered i ⟨.commit id expected next, Except.ok r⟩)
  | acted : Moves id expected next r (.acted (.commit id expected next) (.run r))

variable [DecidableEq ι] {i : ι} {x : Exchange} {steps : List (Step ι)}

theorem exchange?_eq_some_iff {step : Step ι} :
    step.exchange? i = some x ↔ step = .answered i x ∨ step = .failed i x := by
  cases step with
  | answered j y => by_cases h : j = i <;> simp [exchange?, h]
  | failed j y => by_cases h : j = i <;> simp [exchange?, h]
  | acted => simp [exchange?]

theorem mem_courseOf : x ∈ courseOf i steps ↔ .answered i x ∈ steps ∨ .failed i x ∈ steps := by
  simp only [courseOf, List.mem_filterMap, exchange?_eq_some_iff]
  constructor
  · rintro ⟨_, hmem, rfl | rfl⟩
    · exact Or.inl hmem
    · exact Or.inr hmem
  · rintro (hmem | hmem)
    · exact ⟨_, hmem, Or.inl rfl⟩
    · exact ⟨_, hmem, Or.inr rfl⟩

theorem courseOf_cons (step : Step ι) (steps : List (Step ι)) :
    courseOf i (step :: steps) = (step.exchange? i).toList ++ courseOf i steps := by
  rw [courseOf, List.filterMap_cons]
  cases step.exchange? i <;> rfl

theorem courseOf_append (steps steps' : List (Step ι)) :
    courseOf i (steps ++ steps') = courseOf i steps ++ courseOf i steps' :=
  List.filterMap_append

theorem courseOf_append_cons (before after : List (Step ι)) :
    courseOf i (before ++ .answered i x :: after) =
      courseOf i before ++ x :: courseOf i after := by
  rw [courseOf_append, courseOf_cons, exchange?, if_pos rfl, Option.toList_some,
    List.singleton_append]

theorem exists_of_courseOf_eq {before after : List Exchange}
    (h : courseOf i steps = before ++ x :: after) :
    ∃ first step rest, steps = first ++ step :: rest ∧ step.exchange? i = some x ∧
      courseOf i first = before ∧ courseOf i rest = after := by
  obtain ⟨front, back, rfl, hfront, hback⟩ := List.filterMap_eq_append_iff.mp h
  obtain ⟨idle, step, rest, rfl, hidle, hstep, hrest⟩ := List.filterMap_eq_cons_iff.mp hback
  refine ⟨front ++ idle, step, rest, by simp, hstep, ?_, hrest⟩
  have hquiet : idle.filterMap (exchange? i) = [] := List.filterMap_eq_nil_iff.mpr hidle
  simp [courseOf, hfront, hquiet]

end Step

/-! ### Histories of a store -/

namespace Store

variable {ι : Type} {plans : String → PlannedRun → Prop} {s s₁ s' : Store} {step : Step ι}
  {steps steps' : List (Step ι)}

/-- The step leads from one store to the other. -/
inductive Happens (s : Store) : Step ι → Store → Prop
  | answered {i : ι} {x : Exchange} {s' : Store} (h : Answers s x s') :
      Happens s (.answered i x) s'
  | failed {i : ι} {x : Exchange} (h : x.Failed) : Happens s (.failed i x) s
  | acted {op : Operation} (hfresh : op.Fresh s) :
      Happens s (.acted op (s.perform op).2) (s.perform op).1

/-- The steps, one after another, lead from one store to the other. -/
inductive Undergoes : Store → List (Step ι) → Store → Prop
  | nil (s : Store) : Undergoes s [] s
  | cons {s s₁ s' : Store} {step : Step ι} {steps : List (Step ι)} (hstep : Happens s step s₁)
      (h : Undergoes s₁ steps s') : Undergoes s (step :: steps) s'

theorem Undergoes.of_append (h : Undergoes s (steps ++ steps') s') :
    ∃ s₁, Undergoes s steps s₁ ∧ Undergoes s₁ steps' s' := by
  induction steps generalizing s with
  | nil => exact ⟨s, .nil s, h⟩
  | cons step steps ih =>
    cases h with
    | cons hstep h =>
      obtain ⟨s₁, hfirst, hrest⟩ := ih h
      exact ⟨s₁, .cons hstep hfirst, hrest⟩

theorem Undergoes.of_append_cons (h : Undergoes s (steps ++ step :: steps') s') :
    ∃ s₁ s₂, Undergoes s steps s₁ ∧ Happens s₁ step s₂ ∧ Undergoes s₂ steps' s' := by
  obtain ⟨s₁, hfirst, hrest⟩ := h.of_append
  cases hrest with
  | cons hstep hlater => exact ⟨s₁, _, hfirst, hstep, hlater⟩

theorem Undergoes.answered_of_mem_courseOf [DecidableEq ι] (h : Undergoes s steps s') {i : ι}
    {x : Exchange} (hmem : x ∈ Step.courseOf i steps) (hok : ¬ x.Failed) :
    .answered i x ∈ steps := by
  rcases Step.mem_courseOf.mp hmem with hanswered | hfailed
  · exact hanswered
  · obtain ⟨before, after, rfl⟩ := List.append_of_mem hfailed
    obtain ⟨_, _, _, hstep, _⟩ := h.of_append_cons
    cases hstep with
    | failed h => exact absurd h hok

theorem Answers.exists_op {x : Exchange} (h : Answers s x s') :
    s' = s ∨ ∃ op : Operation, op.Fresh s ∧ (s.perform op).1 = s' ∧
      ∀ d, op ≠ .putDeployment d := by
  cases h with
  | insertRuns hfresh => exact Or.inr ⟨_, hfresh, rfl, fun _ h => by cases h⟩
  | @commit id expected next _ r h =>
    refine Or.inr ⟨.commit id expected next, trivial, ?_, fun _ h => by cases h⟩
    rw [perform, h]
  | create hfresh h =>
    refine Or.inr ⟨_, hfresh, ?_, fun _ h => by cases h⟩
    rw [perform, h]
  | findExisting | commitRejected | query | createRejected | listSchedulable | elsewhere =>
    exact Or.inl rfl

theorem Happens.reachable (hs : Reachable s) (h : Happens s step s') : Reachable s' := by
  cases h with
  | failed => exact hs
  | acted hfresh => exact hs.perform hfresh
  | answered h =>
    rcases h.exists_op with rfl | ⟨op, hfresh, rfl, _⟩
    · exact hs
    · exact hs.perform hfresh

/-- What scripts and others do to a store, operations can do as well. -/
theorem Undergoes.reachable (hs : Reachable s) (h : Undergoes s steps s') : Reachable s' := by
  induction h with
  | nil => exact hs
  | cons hstep _ ih => exact ih (hstep.reachable hs)

theorem Happens.changes (hs : s.WellFormed) (h : Happens s step s') :
    Changes (fun _ _ => True) s s' := by
  cases h with
  | answered h => exact h.changes hs fun _ _ _ _ _ => trivial
  | failed => exact .refl
  | acted hfresh => exact changes_perform hs hfresh fun _ _ _ _ _ => trivial

theorem Undergoes.changes (hs : s.WellFormed) (h : Undergoes s steps s') :
    Changes (fun _ _ => True) s s' := by
  induction h with
  | nil => exact .refl
  | cons hstep _ ih =>
    have hchanges := hstep.changes hs
    exact hchanges.trans (ih (hchanges.wellFormed hs))

theorem Undergoes.wellFormed (hs : s.WellFormed) (h : Undergoes s steps s') : s'.WellFormed :=
  (h.changes hs).wellFormed hs

theorem Undergoes.growsInto (hs : s.WellFormed) (h : Undergoes s steps s') {id : RunId} {r : Run}
    (hget : s.getRun id = some r) : ∃ r', s'.getRun id = some r' ∧ r.GrowsInto r' :=
  (h.changes hs).growsInto hget

/-! ### What becomes of a run in a step -/

theorem Happens.of_commit (hs : s.WellFormed) {i : ι} {id : RunId} {expected : Expected}
    {next : State} {r' : Run}
    (h : Happens s (.answered i ⟨.commit id expected next, Except.ok r'⟩) s') :
    ∃ r, s.getRun id = some r ∧ expected.holds r.state = true ∧
      r.kind.canBecome next.kind = true ∧ r' = r.enter next ∧ s'.getRun id = some r' := by
  cases h with
  | answered h =>
    cases h with
    | commit h =>
      obtain ⟨r, hget, hholds, hmove, rfl, s₁, hslot, rfl⟩ := change_of_commit hs h
      have hid : r.id = id := hs.id_eq hget
      refine ⟨r, hget, hholds, hmove, rfl, ?_⟩
      rw [getRun_putRun]
      exact if_pos hid
    | elsewhere h => cases h

theorem Undergoes.mem_moved_iff [DecidableEq ι] (hs : s.WellFormed) (h : Undergoes s steps s')
    {i : ι} {r : Run} :
    r ∈ (Step.courseOf i steps).filterMap Exchange.moved? ↔
      ∃ expected next, .answered i ⟨.commit r.id expected next, Except.ok r⟩ ∈ steps := by
  simp only [List.mem_filterMap, Exchange.moved?_eq_some_iff]
  constructor
  · rintro ⟨_, hmem, id, expected, next, rfl⟩
    have hanswered := h.answered_of_mem_courseOf hmem nofun
    obtain ⟨before, after, rfl⟩ := List.append_of_mem hanswered
    obtain ⟨s₁, s₂, hbefore, hstep, _⟩ := h.of_append_cons
    have hs₁ := hbefore.wellFormed hs
    obtain ⟨r', hget, _, _, rfl, _⟩ := hstep.of_commit hs₁
    have hid : r'.id = id := hs₁.id_eq hget
    refine ⟨expected, next, ?_⟩
    rw [show (r'.enter next).id = id from hid]
    exact hanswered
  · rintro ⟨expected, next, hmem⟩
    exact ⟨_, Step.mem_courseOf.mpr (Or.inl hmem), _, expected, next, rfl⟩

theorem Happens.of_query {i : ι} {filter : RunFilter} {runs : List Run}
    (h : Happens s (.answered i ⟨.query filter, Except.ok runs⟩) s') :
    s' = s ∧ runs = s.query filter := by
  cases h with
  | answered h =>
    cases h with
    | query => exact ⟨rfl, rfl⟩
    | elsewhere h => cases h

theorem Happens.getRun (hs : s.WellFormed) (h : Happens s step s') {id : RunId} {r : Run}
    (hget : s.getRun id = some r) :
    s'.getRun id = some r ∨
      ∃ expected next, step.Moves id expected next (r.enter next) ∧
        s'.getRun id = some (r.enter next) := by
  have hop {op : Operation} (hfresh : op.Fresh s) := (effect_perform hs hfresh).getRun hfresh hget
  cases h with
  | failed => exact Or.inl hget
  | acted hfresh =>
    refine (hop hfresh).imp_right ?_
    rintro ⟨expected, next, rfl, hout, hmoved⟩
    refine ⟨expected, next, ?_, hmoved⟩
    rw [hout]
    exact .acted
  | @answered i x s' h =>
    cases h with
    | @insertRuns deployment given hfresh =>
      refine (hop hfresh).imp_right ?_
      rintro ⟨_, _, heq, _⟩
      cases heq
    | @commit other expected next s' moved h =>
      have hcommit := Happens.of_commit hs (.answered (i := i) (.commit h))
      obtain ⟨before, hbefore, _, _, rfl, hmoved⟩ := hcommit
      by_cases hid : other = id
      · subst hid
        rw [hget] at hbefore
        cases hbefore
        exact Or.inr ⟨expected, next, .answered i, hmoved⟩
      · left
        obtain ⟨_, _, _, _, _, _, hother⟩ := history_of_commit hs h
        rw [hother id (Ne.symm hid), hget]
    | @create request now freshId s' created hfresh h =>
      have hcreated := hop hfresh
      rw [perform, h] at hcreated
      refine hcreated.imp_right ?_
      rintro ⟨_, _, heq, _⟩
      cases heq
    | findExisting | commitRejected | query | createRejected | listSchedulable | elsewhere =>
      exact Or.inl hget

theorem Happens.getRun_of_none (hs : s.WellFormed) (h : Happens s step s') {id : RunId}
    (hnone : s.getRun id = none) {r : Run} (hget : s'.getRun id = some r) :
    r.state.isTerminal = false := by
  have hnew {op : Operation} (hfresh : op.Fresh s)
      (hget : (s.perform op).1.getRun id = some r) : r.state.isTerminal = false := by
    have hnot : s.getRun id ≠ some r := by
      rw [hnone]
      exact nofun
    have heffect := effect_perform hs hfresh
    generalize s.perform op = result at hget heffect
    cases heffect with
    | deployment | known | rejected => exact absurd hget hnot
    | inserted deployment given =>
      rcases getRun_insertRuns hget with hbefore | ⟨p, _, rfl⟩
      · exact absurd hbefore hnot
      · rfl
    | @born _ _ _ born s₁ hborn _ hslot =>
      rw [getRun_putRun, hslot.getRun_eq] at hget
      split_ifs at hget
      · cases hget
        exact hborn.followsTable.not_isTerminal hborn.history
      · exact absurd hget hnot
    | @moved _ _ mover s₁ hstored _ _ hslot =>
      rw [getRun_putRun, hslot.getRun_eq] at hget
      have hne : mover.id ≠ id := by
        rintro rfl
        rw [hnone] at hstored
        cases hstored
      exact absurd ((if_neg hne).symm.trans hget) hnot
  cases h with
  | failed =>
    rw [hnone] at hget
    cases hget
  | acted hfresh => exact hnew hfresh hget
  | answered h =>
    rcases h.exists_op with rfl | ⟨op, hfresh, rfl, _⟩
    · rw [hnone] at hget
      cases hget
    · exact hnew hfresh hget

theorem Undergoes.getRun_of_unmoved (hs : s.WellFormed) (h : Undergoes s steps s') {id : RunId}
    {r : Run} (hget : s.getRun id = some r)
    (hnone : ∀ step ∈ steps, ∀ expected next moved, ¬ step.Moves id expected next moved) :
    s'.getRun id = some r := by
  induction h with
  | nil => exact hget
  | @cons s s₁ s' step steps hstep _ ih =>
    have hs₁ := (hstep.changes hs).wellFormed hs
    rcases hstep.getRun hs hget with hsame | ⟨expected, next, hmoves, _⟩
    · exact ih hs₁ hsame fun step hmem => hnone step (List.mem_cons_of_mem _ hmem)
    · exact absurd hmoves (hnone step List.mem_cons_self expected next _)

end Store

end RunScheduler
