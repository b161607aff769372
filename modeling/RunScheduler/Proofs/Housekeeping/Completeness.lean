import RunScheduler.Proofs.Housekeeping.Sweep

/-!
# Sweeps miss no run

While a pass sweeps, others create, plan and move runs between any two of its exchanges with the
store. If the store does not fail the pass, nothing but changes of runs that were moved meanwhile
is rejected (`quiet_of_works`), so that every page is the first one of its time, and the last one
holds all the runs that are selected then. A run that nobody else touched is selected until it is
changed, so it has been changed before the last page or is changed then (`sweeps_miss_none`).
-/

namespace RunScheduler.Housekeeping

open Script Store

variable {ι : Type} [DecidableEq ι] {i : ι} {s s' s₁ s₂ : Store} {steps : List (Step ι)}
  {filter : RunFilter} {change : Change}

/-! ### What the store does for a sweep -/

/-- Where the store works, it rejects only changes that came too late. -/
theorem quiet_of_works (hs : s.WellFormed) (hsuits : Suits filter change)
    (hadmits : Protocol.Admits (Sweeps filter change) [] (Step.courseOf i steps))
    (hsteps : Undergoes s steps s') (hworks : ∀ x, .failed i x ∉ steps) :
    Quiet (Step.courseOf i steps) := by
  intro x hx hfailed
  obtain ⟨before, after, hcourse⟩ := List.append_of_mem hx
  obtain ⟨first, step, rest, rfl, hstep, rfl, _⟩ := Step.exists_of_courseOf_eq hcourse
  obtain ⟨s₁, s₂, hfirst, hhappens, _⟩ := hsteps.of_append_cons
  rw [hcourse] at hadmits
  have hmay := hadmits.of_append_cons
  rcases Step.exchange?_eq_some_iff.mp hstep with rfl | rfl
  · cases hhappens with
    | answered hanswer =>
      cases hfailed with
      | commit id expected next e =>
        cases hmay with
        | elsewhere h => cases h
        | @change limit offset runs r hread hr =>
          obtain ⟨_, r', hget, _⟩ := hfirst.of_read hs hread hr
          have hcommit := commit_of_getRun change.expected hget hsuits.not_running
          cases hanswer with
          | elsewhere h => cases h
          | commitRejected h =>
            split_ifs at hcommit
            · obtain ⟨_, hok⟩ := hcommit
              rw [hok] at h
              cases h
            · rw [hcommit] at h
              cases h
              exact ⟨_, _, _, _, _, _, rfl⟩
      | query => cases hanswer with
        | elsewhere h => cases h
      | insertRuns | findExisting | create | listSchedulable => cases hmay with
        | elsewhere h => cases h
  · exact absurd (List.mem_append_right _ List.mem_cons_self) (hworks x)

/-- The script moves runs by one change only. -/
def MovesBy (i : ι) (change : Change) (steps : List (Step ι)) : Prop :=
  ∀ id expected next moved, .answered i ⟨.commit id expected next, Except.ok moved⟩ ∈ steps →
    expected = change.expected ∧ next = change.next

theorem movesBy_of_admits (hs : s.WellFormed) (hsuits : Suits filter change)
    (hadmits : Protocol.Admits (Sweeps filter change) [] (Step.courseOf i steps))
    (hsteps : Undergoes s steps s') : MovesBy i change steps := by
  intro id expected next moved hmem
  obtain ⟨before, after, rfl⟩ := List.append_of_mem hmem
  obtain ⟨s₁, s₂, hbefore, hstep, _⟩ := hsteps.of_append_cons
  obtain ⟨_, _, _, hexpected, hnext, _⟩ := selects_of_moved hs hsuits hadmits hbefore hstep
  exact ⟨hexpected, hnext⟩

section Once

variable {before after : List (Step ι)} {id : RunId} {expected expected' : Expected}
  {next next' : State} {moved moved' : Run}

omit [DecidableEq ι] in
theorem not_moved_after (h : Reachable s) (hsuits : Suits filter change)
    (hown : MovesBy i change
      (before ++ .answered i ⟨.commit id expected next, Except.ok moved⟩ :: after))
    (hsteps : Undergoes s
      (before ++ .answered i ⟨.commit id expected next, Except.ok moved⟩ :: after) s') :
    .answered i ⟨.commit id expected' next', Except.ok moved'⟩ ∉ after := by
  intro hmem
  obtain ⟨_, rfl⟩ := hown _ _ _ _ (List.mem_append_right _ List.mem_cons_self)
  obtain ⟨rfl, _⟩ := hown _ _ _ _ (List.mem_append_right _ (List.mem_cons_of_mem _ hmem))
  obtain ⟨s₁, s₂, hbefore, hstep, hafter⟩ := hsteps.of_append_cons
  have h₁ := hbefore.reachable h
  have h₂ := hstep.reachable h₁
  obtain ⟨r, _, _, _, rfl, hget⟩ := hstep.of_commit h₁.wellFormed
  obtain ⟨between, later, rfl⟩ := List.append_of_mem hmem
  obtain ⟨s₃, s₄, hbetween, hagain, _⟩ := hafter.of_append_cons
  have h₃ := hbetween.reachable h₂
  obtain ⟨r', hget', hholds, _⟩ := hagain.of_commit h₃.wellFormed
  obtain ⟨_, hlater, hgrows⟩ := hbetween.growsInto h₂.wellFormed hget
  rw [hget'] at hlater
  cases hlater
  rw [hsuits.once (h₃.followsTable id r' hget') hgrows] at hholds
  cases hholds

omit [DecidableEq ι] in
theorem not_moved_before (h : Reachable s) (hsuits : Suits filter change)
    (hown : MovesBy i change
      (before ++ .answered i ⟨.commit id expected next, Except.ok moved⟩ :: after))
    (hsteps : Undergoes s
      (before ++ .answered i ⟨.commit id expected next, Except.ok moved⟩ :: after) s') :
    .answered i ⟨.commit id expected' next', Except.ok moved'⟩ ∉ before := by
  intro hmem
  obtain ⟨front, between, rfl⟩ := List.append_of_mem hmem
  rw [List.append_assoc, List.cons_append] at hown hsteps
  exact not_moved_after h hsuits hown hsteps (List.mem_append_right _ List.mem_cons_self)

end Once

theorem nodup_moved (h : Reachable s) (hsuits : Suits filter change)
    (hsteps : Undergoes s steps s') (hown : MovesBy i change steps) :
    (((Step.courseOf i steps).filterMap Exchange.moved?).map (·.id)).Nodup := by
  induction hsteps with
  | nil => exact List.nodup_nil
  | @cons s s₁ s' step steps hstep hrest ih =>
    have h₁ := hstep.reachable h
    have hlater := ih h₁ fun id expected next moved hmem =>
      hown id expected next moved (List.mem_cons_of_mem _ hmem)
    rw [Step.courseOf_cons, List.filterMap_append]
    cases hmoved : step.exchange? i with
    | none => exact hlater
    | some x =>
      cases hx : x.moved? with
      | none =>
        rw [Option.toList_some, List.filterMap_cons_none hx]
        exact hlater
      | some r =>
        rw [Option.toList_some, List.filterMap_cons_some hx]
        refine List.nodup_cons.mpr ⟨fun hmem => ?_, hlater⟩
        obtain ⟨again, hagain, hid⟩ := List.mem_map.mp hmem
        obtain ⟨expected', next', hanswered⟩ := (hrest.mem_moved_iff h₁.wellFormed).mp hagain
        obtain ⟨id, expected, next, rfl⟩ := Exchange.moved?_eq_some_iff.mp hx
        rcases Step.exchange?_eq_some_iff.mp hmoved with rfl | rfl
        · obtain ⟨before, _, _, _, rfl, hafter⟩ := hstep.of_commit h.wellFormed
          have hsame : again.id = id := hid.trans (h₁.wellFormed.id_eq hafter)
          rw [hsame] at hanswered
          have hsteps : Undergoes s ([] ++ _ :: steps) s' := .cons hstep hrest
          exact not_moved_after h hsuits hown hsteps hanswered
        · cases hstep with
          | failed h => cases h

/-! ### Sweeps that others come in between of -/

/-- Nobody but the script has moved the run. -/
def MovedOnlyBy (i : ι) (id : RunId) (steps : List (Step ι)) : Prop :=
  ∀ step ∈ steps, ∀ expected next moved, step.Moves id expected next moved →
    ∃ x, step = .answered i x

theorem moved_of_exhausts (hs : s.WellFormed) (hsuits : Suits filter change)
    (hexhausts : Exhausts filter change (Step.courseOf i steps)) (hsteps : Undergoes s steps s')
    (hworks : ∀ x, .failed i x ∉ steps) {id : RunId} {r : Run} (hget : s.getRun id = some r)
    (hselects : filter.selects r = true) (honly : MovedOnlyBy i id steps) :
    ∃ expected next moved, .answered i ⟨.commit id expected next, Except.ok moved⟩ ∈ steps := by
  by_contra hnever
  have hunmoved : ∀ step ∈ steps, ∀ expected next moved, ¬ step.Moves id expected next moved := by
    intro step hmem expected next moved hmoves
    obtain ⟨x, rfl⟩ := honly step hmem expected next moved hmoves
    cases hmoves
    exact hnever ⟨expected, next, moved, hmem⟩
  obtain ⟨before, runs, after, hcourse, hlast, htried⟩ := hexhausts
  obtain ⟨first, step, rest, rfl, hstep, _, rfl⟩ := Step.exists_of_courseOf_eq hcourse
  obtain ⟨s₁, s₂, hfirst, hpage, hrest⟩ := hsteps.of_append_cons
  have hs₁ := hfirst.wellFormed hs
  have hget₁ := hfirst.getRun_of_unmoved hs hget fun step hmem =>
    hunmoved step (List.mem_append_left _ hmem)
  rcases Step.exchange?_eq_some_iff.mp hstep with rfl | rfl
  · obtain ⟨rfl, rfl⟩ := hpage.of_query
    -- The run is on the last page, and nothing keeps it from being changed then.
    have hid : r.id = id := hs₁.id_eq hget₁
    have hmem : r ∈ s₂.query (filter.page (max filter.limit 1) 0) :=
      mem_query_of_length_lt hs₁ rfl hlast (hid.symm ▸ hget₁) hselects
    obtain ⟨reply, hreply⟩ := htried r hmem
    rw [hid] at hreply
    rcases Step.mem_courseOf.mp hreply with hreply | hreply
    · obtain ⟨between, later, rfl⟩ := List.append_of_mem hreply
      obtain ⟨s₃, s₄, hbetween, hcommit, _⟩ := hrest.of_append_cons
      have hget₃ := hbetween.getRun_of_unmoved hs₁ hget₁ fun step hmem =>
        hunmoved step (List.mem_append_right _ (List.mem_cons_of_mem _
          (List.mem_append_left _ hmem)))
      have hmoves := commit_of_getRun change.expected hget₃ hsuits.not_running
      rw [if_pos (hsuits.mayMove hselects)] at hmoves
      cases hcommit with
      | answered hanswer =>
        cases hanswer with
        | elsewhere h => cases h
        | commit h =>
          exact hnever ⟨_, _, _, List.mem_append_right _ (List.mem_cons_of_mem _ hreply)⟩
        | commitRejected h =>
          obtain ⟨_, hok⟩ := hmoves
          rw [hok] at h
          cases h
    · exact absurd (List.mem_append_right _ (List.mem_cons_of_mem _ hreply)) (hworks _)
  · exact absurd (List.mem_append_right _ List.mem_cons_self) (hworks _)

theorem moved_of_movedOnlyBy (h : Reachable s) (hsuits : Suits filter change)
    (hadmits : Protocol.Admits (Sweeps filter change) [] (Step.courseOf i steps))
    (hexhausts : Exhausts filter change (Step.courseOf i steps)) (hsteps : Undergoes s steps s')
    (hworks : ∀ x, .failed i x ∉ steps) {id : RunId} {r : Run} (hget : s.getRun id = some r)
    (hselects : filter.selects r = true) (honly : MovedOnlyBy i id steps) :
    (∃ expected next, .answered i ⟨.commit id expected next,
      Except.ok (r.enter change.next)⟩ ∈ steps) ∧ s'.getRun id = some (r.enter change.next) := by
  have hs := h.wellFormed
  obtain ⟨expected, next, moved, hmem⟩ :=
    moved_of_exhausts hs hsuits hexhausts hsteps hworks hget hselects honly
  have hown := movesBy_of_admits hs hsuits hadmits hsteps
  obtain ⟨before, after, rfl⟩ := List.append_of_mem hmem
  obtain ⟨s₁, s₂, hbefore, hstep, hafter⟩ := hsteps.of_append_cons
  obtain ⟨r', hget₁, _, _, _, rfl, hget₂⟩ := selects_of_moved hs hsuits hadmits hbefore hstep
  have hunmoved_before : ∀ step ∈ before, ∀ expected next moved,
      ¬ step.Moves id expected next moved := by
    intro step hmem expected next moved hmoves
    obtain ⟨x, rfl⟩ := honly step (List.mem_append_left _ hmem) expected next moved hmoves
    cases hmoves
    exact not_moved_before h hsuits hown hsteps hmem
  have hunmoved_after : ∀ step ∈ after, ∀ expected next moved,
      ¬ step.Moves id expected next moved := by
    intro step hmem expected next moved hmoves
    obtain ⟨x, rfl⟩ := honly step (List.mem_append_right _ (List.mem_cons_of_mem _ hmem))
      expected next moved hmoves
    cases hmoves
    exact not_moved_after h hsuits hown hsteps hmem
  have hsame := hbefore.getRun_of_unmoved hs hget hunmoved_before
  rw [hget₁] at hsame
  cases hsame
  have hs₂ := (hstep.reachable (hbefore.reachable h)).wellFormed
  exact ⟨⟨expected, next, hmem⟩, hafter.getRun_of_unmoved hs₂ hget₂ hunmoved_after⟩

variable {sweeper : Sweeper} {now : Instant} {result : Except HousekeepingError PassStats}

/-- **Sweeps miss no run.** While a pass over late runs or expired pauses goes on, others do what
they like to the store between any two of its exchanges, and the store does not fail the pass. If
the pass ends, either the instant up to which runs matter was not in the calendar and it did
nothing, or:

* a run that the filter selected when the pass began, and that nobody else moved, was moved by the
  pass, and is now as the pass left it;
* a run that the pass moved was selected by the filter at that moment;
* no change failed, and as many are counted as runs were moved, each of them once. -/
theorem sweeps_miss_none (h : Reachable s)
    (htakes : (sweeper.pass now).Takes (Step.courseOf i steps) result)
    (hsteps : Undergoes s steps s') (hworks : ∀ x, .failed i x ∉ steps) :
    (sweeper.filter? now = none →
      Step.courseOf i steps = [] ∧ result = .error .cutoffOutOfRange) ∧
    ∀ filter, sweeper.filter? now = some filter →
      (∀ id r, s.getRun id = some r → filter.selects r = true → MovedOnlyBy i id steps →
        (∃ expected next, .answered i ⟨.commit id expected next,
          Except.ok (r.enter (sweeper.change now).next)⟩ ∈ steps) ∧
        s'.getRun id = some (r.enter (sweeper.change now).next)) ∧
      (∀ before id expected next moved after s₁ s₂,
        steps = before ++ .answered i ⟨.commit id expected next, Except.ok moved⟩ :: after →
        Undergoes s before s₁ →
        Happens s₁ (.answered i ⟨.commit id expected next, Except.ok moved⟩) s₂ →
        ∃ r, s₁.getRun id = some r ∧ filter.selects r = true ∧
          moved = r.enter (sweeper.change now).next) ∧
      ∃ stats, result = .ok stats ∧ stats.failed = 0 ∧
        stats.transitioned = ((Step.courseOf i steps).filterMap Exchange.moved?).length ∧
        stats.examined = stats.transitioned + stats.skipped ∧
        (((Step.courseOf i steps).filterMap Exchange.moved?).map (·.id)).Nodup := by
  have hs := h.wellFormed
  rw [Sweeper.pass_eq] at htakes
  refine ⟨fun hnone => ?_, fun filter hfilter => ?_⟩
  · rw [hnone] at htakes
    exact htakes.of_done
  · rw [hfilter] at htakes
    have hsuits := Sweeper.suits hfilter
    obtain ⟨hadmits, hends⟩ := keepsTo_sweep _ _ htakes
    have hquiet := quiet_of_works hs hsuits hadmits hsteps hworks
    obtain ⟨stats, hresult, ⟨hfailed, htransitioned, hexamined⟩, hexhausts⟩ := hends hquiet
    have hdistinct := nodup_moved h hsuits hsteps (movesBy_of_admits hs hsuits hadmits hsteps)
    refine ⟨fun id r hget hselects honly => ?_, ?_,
      stats, hresult, hfailed, htransitioned, hexamined, hdistinct⟩
    · exact moved_of_movedOnlyBy h hsuits hadmits hexhausts hsteps hworks hget hselects honly
    · rintro before id expected next moved after s₁ s₂ rfl hbefore hstep
      obtain ⟨r, hget, hselects, _, _, hmoved, _⟩ :=
        selects_of_moved hs hsuits hadmits hbefore hstep
      exact ⟨r, hget, hselects, hmoved⟩

def plannedAtEpoch (key : String) : PlannedRun where
  name := key
  scheduledTime := .epoch
  key := key
  createdAt := .epoch

def dueFirst : Run := (plannedAtEpoch "a").toRun "etl" ⟨1⟩

def dueSecond : Run := (plannedAtEpoch "b").toRun "etl" ⟨2⟩

/-- A store with two runs that are scheduled for the same instant. -/
def twoScheduled : Store :=
  (empty.perform (.insertRuns "etl" [(⟨1⟩, plannedAtEpoch "a"), (⟨2⟩, plannedAtEpoch "b")])).1

def anHourLater : Instant := (Instant.epoch.addSeconds? 3600).getD .epoch

/-- A pass over late runs that looks at one at a time. -/
def oneByOne : Sweeper := .lateRuns { batchSize := 1 }

def lateByThen : RunFilter where
  kinds := [.scheduled]
  scheduledBefore := LateRuns.cutoff? {} anHourLater
  limit := 1

def markLate : Change := LateRuns.change anHourLater

def startedThen : State := { kind := .pending, time := anHourLater }

/-- While the pass has the first run on its page, somebody starts it. -/
def stepsOfOneByOne : List (Step Unit) :=
  [.answered () ⟨.query lateByThen, Except.ok [dueFirst]⟩,
   .acted (.commit ⟨1⟩ .any startedThen) (.run (dueFirst.enter startedThen)),
   .answered () ⟨.commit ⟨1⟩ markLate.expected markLate.next,
     Except.error (.illegalMove ⟨1⟩ (some .pending) .late)⟩,
   .answered () ⟨.query lateByThen, Except.ok [dueSecond]⟩,
   .answered () ⟨.commit ⟨2⟩ markLate.expected markLate.next,
     Except.ok (dueSecond.enter markLate.next)⟩,
   .answered () ⟨.query lateByThen, Except.ok []⟩]

theorem reachable_twoScheduled : Reachable twoScheduled := by
  refine Reachable.empty.perform ⟨by decide, fun id hmem => ?_⟩
  rfl

theorem takes_oneByOne : (oneByOne.pass anHourLater).Takes (Step.courseOf () stepsOfOneByOne)
    (.ok { examined := 2, transitioned := 1, skipped := 1 }) := by
  have hlast : (sweepStep {} lateByThen markLate
      { examined := 2, transitioned := 1, skipped := 1 }).Takes
        [⟨.query lateByThen, Except.ok []⟩] _ := .ask (.done _)
  have hsecond : (sweepStep {} lateByThen markLate { examined := 1, skipped := 1 }).Takes
      [⟨.query lateByThen, Except.ok [dueSecond]⟩, ⟨.commit ⟨2⟩ markLate.expected markLate.next,
        Except.ok (dueSecond.enter markLate.next)⟩] _ := .ask (.ask (.done _))
  have hfirst : (sweepStep {} lateByThen markLate {}).Takes
      [⟨.query lateByThen, Except.ok [dueFirst]⟩, ⟨.commit ⟨1⟩ markLate.expected markLate.next,
        Except.error (.illegalMove ⟨1⟩ (some .pending) .late)⟩] _ := .ask (.ask (.done _))
  exact .again hfirst (.again hsecond (.enough hlast (.done _)))

theorem sweeps_miss_none_of_oneByOne :
    Reachable twoScheduled ∧
    ∃ s, (oneByOne.pass anHourLater).Takes (Step.courseOf () stepsOfOneByOne)
        (.ok { examined := 2, transitioned := 1, skipped := 1 }) ∧
      Undergoes twoScheduled stepsOfOneByOne s ∧ (∀ x, .failed () x ∉ stepsOfOneByOne) ∧
      lateByThen.selects dueSecond = true ∧ MovedOnlyBy () ⟨2⟩ stepsOfOneByOne ∧
      s.getRun ⟨2⟩ = some (dueSecond.enter markLate.next) := by
  have hpage {s : Store} {runs : List Run} (h : s.query lateByThen = runs) :
      Happens s (.answered () ⟨.query lateByThen, Except.ok runs⟩) s := by
    rw [← h]
    exact .answered (.query _)
  let s₁ := (twoScheduled.perform (.commit ⟨1⟩ .any startedThen)).1
  let s₂ := (s₁.perform (.commit ⟨2⟩ markLate.expected markLate.next)).1
  have hboth : twoScheduled.query lateByThen = [dueFirst] := by
    have hselected : twoScheduled.runs.values.filter lateByThen.selects =
        [dueFirst, dueSecond] := rfl
    rw [query, selected, hselected, List.mergeSort_of_pairwise (by decide)]
    rfl
  have hone : s₁.query lateByThen = [dueSecond] := by
    have hselected : s₁.runs.values.filter lateByThen.selects = [dueSecond] := rfl
    rw [query, selected, hselected, List.mergeSort_singleton]
    rfl
  have hnone : s₂.query lateByThen = [] := by
    have hselected : s₂.runs.values.filter lateByThen.selects = [] := rfl
    rw [query, selected, hselected, List.mergeSort_nil]
    rfl
  have hsteps : Undergoes twoScheduled stepsOfOneByOne s₂ :=
    .cons (hpage hboth) <| .cons (.acted trivial) <|
      .cons (.answered (.commitRejected rfl)) <| .cons (hpage hone) <|
      .cons (.answered (.commit rfl)) <| .cons (hpage hnone) <| .nil _
  have hworks : ∀ x, .failed () x ∉ stepsOfOneByOne := by
    intro x hmem
    simp [stepsOfOneByOne] at hmem
  have honly : MovedOnlyBy () ⟨2⟩ stepsOfOneByOne := by
    intro step hmem expected next moved hmoves
    cases hmoves with
    | answered => exact ⟨_, rfl⟩
    | acted => simp [stepsOfOneByOne] at hmem
  have hmisses := (sweeps_miss_none reachable_twoScheduled takes_oneByOne hsteps hworks).2
  obtain ⟨_, hmoved⟩ := (hmisses lateByThen rfl).1 ⟨2⟩ dueSecond rfl rfl honly
  exact ⟨reachable_twoScheduled, s₂, takes_oneByOne, hsteps, hworks, rfl, honly, hmoved⟩

end RunScheduler.Housekeeping
