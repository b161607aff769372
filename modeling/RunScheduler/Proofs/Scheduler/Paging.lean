import RunScheduler.Proofs.Materialization.Keys
import RunScheduler.Proofs.Scheduler.Rounds
import RunScheduler.Proofs.Script.Ends
import RunScheduler.Proofs.Store.Catalog
import RunScheduler.Proofs.Store.Sharing

/-!
# Passes visit each deployment once

Each page of a pass has the first of the schedulable deployments that come after its token, as the
catalog is when the page is listed. While nobody changes the catalog these are the ones that the
pages before left over, so a pass visits all of them in their order (`Rounds.visited_eq`) and there
is an end to it (`halts_pass`).

If others change the catalog between the pages, the tokens still only go up: a page has deployments
after its token and not after the next one, and it has all of those that are schedulable when it is
listed (`Rounds.visits`). So no deployment is visited twice, and one that is schedulable whenever a
page is listed is visited, whatever becomes of the others (`passes_visit_each_once`).
-/

namespace RunScheduler

open Script Store

/-! ### Scripts that a pass is made of -/

variable {allowed : Exchange → Prop}

namespace Materializer

variable {m : Materializer} {d : Deployment} {now : Instant}

theorem halts_announce (chunk : List PlannedRun) (inserted : Nat) :
    Halts allowed (announce d chunk inserted) := by
  by_cases hne : chunk = []
  · rw [hne]
    exact .done ()
  · rw [announce_eq hne]
    split_ifs
    · exact .call
    · exact .done ()

theorem halts_insertChunks (report : Materialization) (chunks : List (List PlannedRun)) :
    Halts allowed (m.insertChunks d report chunks) := by
  induction chunks generalizing report with
  | nil => exact .done _
  | cons chunk chunks ih =>
    rw [insertChunks]
    refine .bind (.retry .call) fun _ outcome _ _ => ?_
    cases outcome with
    | error e => exact .done _
    | ok inserted => exact .bind (halts_announce chunk inserted) fun _ _ _ _ => ih _

theorem halts_materialize : Halts allowed (m.materialize d now) := by
  rw [materialize]
  split_ifs
  · exact .done _
  · refine .bind (.retry .call) fun _ outcome _ _ => ?_
    cases outcome with
    | error e => exact .done _
    | ok existing => exact halts_insertChunks _ _

end Materializer

namespace Scheduler

variable {s : Scheduler} {now : Instant} {heedsStop : Bool} {p : PassState}
  {rounds : List Round} {course : List Exchange} {result : PassReport × FailureCounts}

theorem halts_recordAll (report : PassReport) (failures : FailureCounts)
    (outcomes : List (Deployment × Except SchedulingError Materialization)) :
    Halts allowed (s.recordAll report failures outcomes) := by
  induction outcomes generalizing report failures with
  | nil => exact .done _
  | cons e outcomes ih =>
    obtain ⟨d, outcome⟩ := e
    refine .bind ?_ fun _ _ _ _ => ih _ _
    cases outcome with
    | ok done => exact .done _
    | error e =>
      simp only [record]
      split_ifs
      · exact .bind .call fun _ _ _ _ => .done _
      · exact .done _

theorem halts_passStep : Halts allowed (s.passStep now heedsStop p) := by
  rw [passStep_eq]
  refine .bind ?_ fun _ stop _ _ => ?_
  · cases heedsStop with
    | true => exact .call
    | false => exact .done _
  · cases stop with
    | true => exact .done _
    | false =>
      refine .bind .call fun _ _ _ _ => .bind (.retry .call) fun _ reply _ _ => ?_
      cases reply with
      | error e => exact .done _
      | ok page =>
        refine .bind (.bind .call fun _ _ _ _ => .bind (.all ?_) fun _ _ _ _ =>
          halts_recordAll _ _ _) fun _ result _ _ => ?_
        · simp only [List.forall_mem_map]
          exact fun d _ => Materializer.halts_materialize
        · dsimp only
          cases s.nextToken page <;> exact .done _

/-! ### Pages of a catalog -/

theorem Round.Deals.mem_course {round : Round} (h : round.Deals s now heedsStop p result) :
    ⟨.listSchedulable p.token (max s.pageSize 1), Except.ok round.page⟩ ∈ round.course := by
  have hlisted := of_listPage h.listed
  rw [Round.course]
  simp [hlisted]

theorem pageSize_pos (s : Scheduler) : 0 < max s.pageSize 1 :=
  Nat.lt_of_lt_of_le one_pos (le_max_right _ _)

theorem nextToken_listSchedulable (s : Scheduler) (catalog : Store) (token : Option String) :
    s.nextToken (catalog.listSchedulable token (max s.pageSize 1)) =
      (catalog.listSchedulable token (max s.pageSize 1)).next := by
  rw [nextToken, next_listSchedulable _ _ s.pageSize_pos]
  split_ifs <;> rfl

/-! ### Catalogs that nobody changes -/

/-- What is replied to a pass that goes through a catalog and is not ended early. -/
def Calm (catalog : Store) : Exchange → Prop
  | ⟨.listSchedulable token size, reply⟩ =>
    reply = Except.ok (catalog.listSchedulable token size)
  | ⟨.stopRequested, reply⟩ => reply = false
  | _ => True

variable {catalog : Store}

theorem exists_calm (catalog : Store) (request : Request) :
    ∃ reply, Calm catalog ⟨request, reply⟩ := by
  cases request with
  | listSchedulable token size => exact ⟨_, rfl⟩
  | stopRequested => exact ⟨_, rfl⟩
  | insertRuns => exact ⟨Except.ok 0, trivial⟩
  | findExisting => exact ⟨Except.ok [], trivial⟩
  | commit => exact ⟨Except.error (.unavailable ""), trivial⟩
  | query => exact ⟨Except.ok [], trivial⟩
  | create => exact ⟨Except.error (.unavailable ""), trivial⟩
  | callHook => exact ⟨none, trivial⟩
  | readClock => exact ⟨Instant.epoch, trivial⟩
  | rest => exact ⟨Wakeup.elapsed, trivial⟩
  | emit | setPhase | wait => exact ⟨(), trivial⟩

theorem not_listingFailed (h : ∀ x ∈ course, Calm catalog x) : ¬ ListingFailed course := by
  rintro ⟨token, size, e, hmem⟩
  cases h _ hmem

theorem not_toldToStop (h : ∀ x ∈ course, Calm catalog x) : ¬ ToldToStop course := by
  intro hmem
  cases h _ hmem

theorem Round.Deals.page_eq {round : Round} (h : round.Deals s now heedsStop p result)
    (hcalm : ∀ x ∈ round.course, Calm catalog x) :
    round.page = catalog.listSchedulable p.token (max s.pageSize 1) :=
  Except.ok.inj (hcalm _ h.mem_course)

/-- The pages have all schedulable deployments from the token on, in their order, and all of them
but the last are full. -/
theorem Rounds.visited_eq (hordered : catalog.CatalogOrdered)
    (h : Rounds s now heedsStop p rounds course result) (hcalm : ∀ x ∈ course, Calm catalog x) :
    visited rounds = catalog.schedulableAfter p.token ∧
      rounds.length = (catalog.schedulableAfter p.token).length / max s.pageSize 1 + 1 := by
  induction h with
  | @last p round result hdeals hnext =>
    rw [hdeals.page_eq hcalm, nextToken_listSchedulable] at hnext
    obtain ⟨hpage, hless⟩ := hordered.of_next_eq_none s.pageSize_pos hnext
    rw [← hdeals.page_eq hcalm] at hpage
    refine ⟨?_, ?_⟩
    · rw [visited, List.flatMap_singleton, hpage]
    · rw [Nat.div_eq_of_lt hless]
      rfl
  | @more p round report failures id rounds rest result hdeals hnext hrest ih =>
    obtain ⟨hfirst, hlater⟩ := List.forall_mem_append.mp hcalm
    obtain ⟨hvisited, hlength⟩ := ih hlater
    rw [hdeals.page_eq hfirst, nextToken_listSchedulable] at hnext
    have hpage := hordered.deployments_listSchedulable p.token s.pageSize_pos
    rw [← hdeals.page_eq hfirst] at hpage
    obtain ⟨hfull, hleft, _⟩ := hordered.of_next_eq_some s.pageSize_pos hnext
    rw [hleft] at hvisited hlength
    refine ⟨?_, ?_⟩
    · rw [visited, List.flatMap_cons, ← visited, hvisited, hpage, List.take_append_drop]
    · rw [List.length_cons, hlength, List.length_drop, Nat.div_eq_sub_div s.pageSize_pos hfull]

theorem halts_pass (hordered : catalog.CatalogOrdered) (failures : FailureCounts) :
    Halts (Calm catalog) (s.pass now heedsStop failures) := by
  refine .repeatFrom (fun p => (catalog.schedulableAfter p.token).length)
    (fun _ => halts_passStep) (fun p course p' htakes hcalm => ?_) _
  rcases of_passStep htakes with ⟨round, result, hdeals, rfl, hnext⟩ | ⟨_, _, hstop⟩ |
    ⟨_, _, _, _, herror⟩
  · obtain ⟨id, htoken, rfl⟩ := afterPage_eq_inl_iff.mp hnext.symm
    rw [hdeals.page_eq hcalm, nextToken_listSchedulable] at htoken
    obtain ⟨hfull, hleft, _⟩ := hordered.of_next_eq_some s.pageSize_pos htoken
    have hpos := s.pageSize_pos
    dsimp only
    rw [hleft, List.length_drop]
    omega
  · cases hstop
  · cases herror

/-! ### Catalogs that others change -/

/-- The pages of a pass, each from the catalog as it was at a moment, go up, and a deployment that
is schedulable at all of these moments is on one of them. -/
theorem Rounds.visits {moment : Store → Prop} (hordered : ∀ s₁, moment s₁ → s₁.CatalogOrdered)
    (h : Rounds s now heedsStop p rounds course result)
    (hlisted : ∀ token size page,
      (⟨.listSchedulable token size, Except.ok page⟩ : Exchange) ∈ course →
      ∃ s₁, moment s₁ ∧ page = s₁.listSchedulable token size) :
    (∀ d ∈ visited rounds, Follows p.token d.id ∧ ∃ s₁, moment s₁ ∧ d ∈ s₁.schedulable) ∧
      (visited rounds).Pairwise (fun d d' => d.id < d'.id) ∧
      ∀ id, Follows p.token id →
        (∀ s₁, moment s₁ → ∃ d, s₁.getDeployment id = some d ∧ d.isSchedulable = true) →
        ∃ d ∈ visited rounds, d.id = id := by
  induction h with
  | @last p round result hdeals hnext =>
    obtain ⟨s₁, hmoment, hpage⟩ := hlisted _ _ _ hdeals.mem_course
    have hs₁ := hordered s₁ hmoment
    rw [hpage, nextToken_listSchedulable] at hnext
    rw [visited, List.flatMap_singleton, hpage]
    refine ⟨fun d hd => ?_, hs₁.pairwise_listSchedulable s.pageSize_pos,
      fun id hfollows hstays => ?_⟩
    · obtain ⟨hmem, hfollows⟩ := hs₁.of_mem_listSchedulable s.pageSize_pos hd
      exact ⟨hfollows, s₁, hmoment, hmem⟩
    · obtain ⟨d, hget, hschedulable⟩ := hstays s₁ hmoment
      rcases hs₁.listed_or_follows s.pageSize_pos hget hschedulable hfollows with
        hmem | ⟨_, hsome, _⟩
      · exact hmem
      · rw [hnext] at hsome
        cases hsome
  | @more p round report failures token rounds rest result hdeals hnext hrest ih =>
    obtain ⟨s₁, hmoment, hpage⟩ := hlisted _ _ _ (List.mem_append_left _ hdeals.mem_course)
    have hs₁ := hordered s₁ hmoment
    obtain ⟨hlater, hpairwise, hcovers⟩ := ih fun token size page hmem =>
      hlisted token size page (List.mem_append_right _ hmem)
    rw [hpage, nextToken_listSchedulable] at hnext
    obtain ⟨_, _, htoken, _⟩ := hs₁.of_next_eq_some s.pageSize_pos hnext
    rw [visited, List.flatMap_cons, ← visited, hpage]
    refine ⟨fun d hd => ?_, ?_, fun id hfollows hstays => ?_⟩
    · rcases List.mem_append.mp hd with hd | hd
      · obtain ⟨hmem, hfollows⟩ := hs₁.of_mem_listSchedulable s.pageSize_pos hd
        exact ⟨hfollows, s₁, hmoment, hmem⟩
      · obtain ⟨hfollows, hschedulable⟩ := hlater d hd
        exact ⟨fun last hlast => (htoken last hlast).trans (hfollows token rfl), hschedulable⟩
    · refine List.pairwise_append.mpr
        ⟨hs₁.pairwise_listSchedulable s.pageSize_pos, hpairwise, fun d hd d' hd' => ?_⟩
      have hle : d.id ≤ token := hs₁.le_of_next_eq_some s.pageSize_pos hnext hd
      exact hle.trans_lt ((hlater d' hd').1 token rfl)
    · obtain ⟨d, hget, hschedulable⟩ := hstays s₁ hmoment
      -- It is on this page or comes after the token, and then a later page has it.
      rcases hs₁.listed_or_follows s.pageSize_pos hget hschedulable hfollows with
        ⟨d', hmem, hid⟩ | ⟨_, hsome, hafter⟩
      · exact ⟨d', List.mem_append_left _ hmem, hid⟩
      · rw [hnext] at hsome
        cases hsome
        obtain ⟨d', hmem, hid⟩ := hcovers id hafter hstays
        exact ⟨d', List.mem_append_right _ hmem, hid⟩

section Sharing

variable {ι : Type} [DecidableEq ι] {i : ι} {s₀ s' : Store} {steps : List (Step ι)}

/-- The store as it is when a page is listed for the script. -/
def ListsFrom (i : ι) (s₀ : Store) (steps : List (Step ι)) (s₁ : Store) : Prop :=
  ∃ before token size page after,
    steps = before ++ .answered i ⟨.listSchedulable token size, Except.ok page⟩ :: after ∧
      Undergoes s₀ before s₁

theorem exists_listsFrom (hsteps : Undergoes s₀ steps s') {token : Option String} {size : Nat}
    {page : Store.Page}
    (hmem : (⟨.listSchedulable token size, Except.ok page⟩ : Exchange) ∈ Step.courseOf i steps) :
    ∃ s₁, ListsFrom i s₀ steps s₁ ∧ page = s₁.listSchedulable token size := by
  obtain ⟨before, after, rfl⟩ := List.append_of_mem (hsteps.answered_of_mem_courseOf hmem nofun)
  obtain ⟨s₁, _, hbefore, hstep, _⟩ := hsteps.of_append_cons
  refine ⟨s₁, ⟨before, token, size, page, after, rfl, hbefore⟩, ?_⟩
  cases hstep with
  | answered hanswer =>
    cases hanswer with
    | listSchedulable => rfl
    | elsewhere h => cases h

theorem calm_of_undergoes (hs₀ : s₀.WellFormed) (hsteps : Undergoes s₀ steps s')
    (hput : ∀ d, .acted (.putDeployment d) .stored ∉ steps)
    (hstop : ¬ ToldToStop (Step.courseOf i steps))
    (hlisting : ¬ ListingFailed (Step.courseOf i steps)) :
    ∀ x ∈ Step.courseOf i steps, Calm s₀ x := by
  rintro ⟨request, reply⟩ hmem
  cases request with
  | listSchedulable token size =>
    cases reply with
    | error e => exact absurd ⟨token, size, e, hmem⟩ hlisting
    | ok page =>
      obtain ⟨s₁, ⟨before, _, _, _, _, rfl, hbefore⟩, rfl⟩ := exists_listsFrom hsteps hmem
      have hsame := hbefore.deployments_eq hs₀ fun d hmem =>
        hput d (List.mem_append_left _ hmem)
      exact congrArg Except.ok (listSchedulable_congr hsame token size)
  | stopRequested =>
    cases reply with
    | true => exact absurd hmem hstop
    | false => exact rfl
  | _ => trivial

/-- **A pass visits each deployment once.**

From a catalog that nobody changes, with no listing that fails and not told to stop, a pass comes to
an end whatever else it is told, and in the end it has materialized exactly the schedulable
deployments, each once and in the order of their ids. For `n` of them it has listed
`n / max size 1 + 1` pages.

If others do what they like to the store between any two of its exchanges, a pass that ends still
has gone through all pages unless it was told to stop or a listing failed, and if nobody put a
deployment meanwhile, through the catalog that there was. If it has, the ids it visited go up from
the first page to the last, each visited deployment was schedulable when it was listed, and a
deployment that was schedulable whenever a page was listed was visited. -/
theorem passes_visit_each_once (s : Scheduler) (now : Instant) (heedsStop : Bool)
    (failures : FailureCounts) :
    (∀ catalog, Reachable catalog →
      Halts (Calm catalog) (s.pass now heedsStop failures) ∧
      (∃ course result, (s.pass now heedsStop failures).Takes course result ∧
        ∀ x ∈ course, Calm catalog x) ∧
      ∀ course result, (s.pass now heedsStop failures).Takes course result →
        (∀ x ∈ course, Calm catalog x) →
        ∃ rounds report failures', result = (.ok report, failures') ∧
          Rounds s now heedsStop { failures } rounds course (report, failures') ∧
          (∀ d, d ∈ visited rounds ↔
            catalog.getDeployment d.id = some d ∧ d.isSchedulable = true) ∧
          (visited rounds).Pairwise (fun d d' => d.id < d'.id) ∧
          rounds.length = (visited rounds).length / max s.pageSize 1 + 1 ∧
          report.pages = rounds.length ∧ report.deployments = (visited rounds).length ∧
          report.interrupted = false) ∧
    ∀ {ι : Type} [DecidableEq ι] (i : ι) (steps : List (Step ι)) (s₀ s' : Store)
      (result : PassResult), Reachable s₀ → Undergoes s₀ steps s' →
      (s.pass now heedsStop failures).Takes (Step.courseOf i steps) result →
      (¬ ToldToStop (Step.courseOf i steps) → ¬ ListingFailed (Step.courseOf i steps) →
        (∃ report failures', result = (.ok report, failures') ∧ report.interrupted = false) ∧
        ((∀ d, .acted (.putDeployment d) .stored ∉ steps) →
          ∀ x ∈ Step.courseOf i steps, Calm s₀ x)) ∧
      ∀ report failures', result = (.ok report, failures') → report.interrupted = false →
        ∃ rounds,
          Rounds s now heedsStop { failures } rounds (Step.courseOf i steps) (report, failures') ∧
          (visited rounds).Pairwise (fun d d' => d.id < d'.id) ∧
          (∀ d ∈ visited rounds, ∃ s₁, ListsFrom i s₀ steps s₁ ∧
            s₁.getDeployment d.id = some d ∧ d.isSchedulable = true) ∧
          ∀ id, (∀ s₁, ListsFrom i s₀ steps s₁ →
              ∃ d, s₁.getDeployment id = some d ∧ d.isSchedulable = true) →
            ∃ d ∈ visited rounds, d.id = id := by
  refine ⟨fun catalog hcatalog => ?_, fun i steps s₀ s' result hs₀ hsteps htakes => ?_⟩
  · have hordered := hcatalog.catalogOrdered
    have hhalts : Halts (Calm catalog) (s.pass now heedsStop failures) :=
      halts_pass hordered failures
    refine ⟨hhalts, hhalts.exists_takes (exists_calm catalog), fun course result htakes hcalm => ?_⟩
    cases ends_of_takes htakes with
    | stopped h => exact absurd h (not_toldToStop hcalm)
    | failed h => exact absurd h (not_listingFailed hcalm)
    | @finished rounds report failures' h =>
      obtain ⟨hvisited, hlength⟩ := h.visited_eq hordered hcalm
      obtain ⟨hpages, hdeployments, hinterrupted⟩ := h.report_eq
      rw [schedulableAfter_none] at hvisited hlength
      rw [Nat.zero_add] at hpages hdeployments
      refine ⟨rounds, report, failures', rfl, h, fun d => ?_, ?_, ?_, hpages, hdeployments,
        hinterrupted⟩
      · rw [hvisited]
        exact hordered.mem_schedulable_iff
      · rw [hvisited]
        exact hordered.pairwise_schedulable
      · rw [hvisited]
        exact hlength
  · cases ends_of_takes htakes with
    | @stopped report failures' h hreport =>
      refine ⟨fun hstop _ => absurd h hstop, ?_⟩
      rintro _ _ heq hinterrupted
      cases heq
      rw [hreport] at hinterrupted
      cases hinterrupted
    | failed h => exact ⟨fun _ hfailed => absurd h hfailed, nofun⟩
    | @finished rounds report failures' h =>
      obtain ⟨_, _, hinterrupted⟩ := h.report_eq
      refine ⟨fun hstop hlisting => ⟨⟨report, failures', rfl, hinterrupted⟩, fun hput =>
        calm_of_undergoes hs₀.wellFormed hsteps hput hstop hlisting⟩, ?_⟩
      rintro _ _ heq _
      cases heq
      have hordered : ∀ s₁, ListsFrom i s₀ steps s₁ → s₁.CatalogOrdered := by
        rintro s₁ ⟨_, _, _, _, _, _, hbefore⟩
        exact (hbefore.reachable hs₀).catalogOrdered
      obtain ⟨hlisted, hpairwise, hcovers⟩ :=
        h.visits hordered fun token size page hmem => exists_listsFrom hsteps hmem
      refine ⟨rounds, h, hpairwise, fun d hd => ?_, fun id hstays => hcovers id nofun hstays⟩
      obtain ⟨_, s₁, hmoment, hmem⟩ := hlisted d hd
      exact ⟨s₁, hmoment, (hordered s₁ hmoment).mem_schedulable_iff.mp hmem⟩

end Sharing

/-- A scheduler whose pages have one deployment. -/
def onePerPage : Scheduler := { pageSize := 0 }

/-- A catalog with one deployment. -/
def oneDeployment : Store := empty.putDeployment nested

def firstPage : Store.Page := { deployments := [nested], next := some nested.id }

/-- While the pass has the only deployment on its page, somebody puts another that would have come
before it. -/
def stepsOfPass : List (Step Unit) :=
  [.answered () ⟨.setPhase .paging, ()⟩,
   .answered () ⟨.listSchedulable none 1, Except.ok firstPage⟩,
   .answered () ⟨.setPhase .draining, ()⟩,
   .answered () ⟨.findExisting nested.id [firstRun.key], Except.ok []⟩,
   .answered () ⟨.insertRuns nested.id [firstRun], Except.ok 1⟩,
   .answered () ⟨.emit (.runsScheduled nested.id 1 firstHour firstHour), ()⟩,
   .acted (.putDeployment { nested with id := "a" }) .stored,
   .answered () ⟨.setPhase .paging, ()⟩,
   .answered () ⟨.listSchedulable (some nested.id) 1, Except.ok {}⟩,
   .answered () ⟨.setPhase .draining, ()⟩]

theorem reachable_oneDeployment : Reachable oneDeployment := by
  have hfresh : (Operation.putDeployment nested).Fresh empty := trivial
  exact Reachable.empty.perform hfresh

/-- What is exchanged for the deployment, which is alone on its page. -/
def nestedAlone : List (Fin 1 × Exchange) :=
  [(0, ⟨.findExisting nested.id [firstRun.key], Except.ok []⟩),
   (0, ⟨.insertRuns nested.id [firstRun], Except.ok 1⟩),
   (0, ⟨.emit (.runsScheduled nested.id 1 firstHour firstHour), ()⟩)]

/-- The round with the deployment on its page. -/
def firstRound : Round where
  page := firstPage
  outcomes := [.ok { candidates := 1, inserted := 1, chunks := 1 }]
  asked := [⟨.setPhase .paging, ()⟩]
  listed := [⟨.listSchedulable none 1, Except.ok firstPage⟩]
  materialized := nestedAlone.map (·.2)
  noted := []

/-- The round that finds nothing more. -/
def lastRound : Round where
  page := {}
  outcomes := []
  asked := [⟨.setPhase .paging, ()⟩]
  listed := [⟨.listSchedulable (some nested.id) 1, Except.ok {}⟩]
  materialized := []
  noted := []

theorem takes_pass : (onePerPage.pass .epoch false {}).Takes (Step.courseOf () stepsOfPass)
    (.ok { pages := 2, deployments := 1, inserted := 1 }, {}) := by
  have hlimit : KeepsLimit 10 nestedAlone := fun _ _ _ _ =>
    (Finset.card_le_univ _).trans (by decide)
  have hidle : KeepsLimit 10 ([] : List (Fin 0 × Exchange)) := fun _ _ _ h => by simp at h
  have hjobs : ∀ i : Fin 1, ([Materializer.materialize {} nested .epoch].get i).Takes
      (Script.courseOf i nestedAlone) (.ok { candidates := 1, inserted := 1, chunks := 1 }) := by
    intro i
    match i with
    | 0 => exact Materializer.takes_nested 1
  have hfirst : firstRound.Deals onePerPage .epoch false {}
      ({ pages := 1, deployments := 1, inserted := 1 }, {}) :=
    { asked := rfl
      listed := .ask (.done _)
      materialized := @Takes.all _ 10 [Materializer.materialize {} nested .epoch] nestedAlone
        (fun _ => .ok { candidates := 1, inserted := 1, chunks := 1 }) hjobs hlimit
      noted := .done _ }
  have hlast : lastRound.Deals onePerPage .epoch false
      { token := some nested.id, report := { pages := 1, deployments := 1, inserted := 1 } }
      ({ pages := 2, deployments := 1, inserted := 1 }, {}) :=
    { asked := rfl
      listed := .ask (.done _)
      materialized := @Takes.all _ 10 [] [] nofun nofun hidle
      noted := .done _ }
  exact Rounds.takes (.more hfirst rfl (.last hlast rfl))

theorem undergoes_stepsOfPass : ∃ s', Undergoes oneDeployment stepsOfPass s' := by
  have hfresh : (Operation.insertRuns nested.id [(⟨1⟩, firstRun)]).Fresh oneDeployment :=
    ⟨List.nodup_singleton _, fun _ _ => rfl⟩
  let s₁ := (oneDeployment.insertRuns nested.id [(⟨1⟩, firstRun)]).1
  let s₂ := s₁.putDeployment { nested with id := "a" }
  have hsecond : Answers s₂ ⟨.listSchedulable (some nested.id) 1, Except.ok {}⟩ s₂ :=
    .listSchedulable (some nested.id) 1
  exact ⟨s₂, .cons (.answered (.elsewhere rfl)) <| .cons (.answered (.listSchedulable none 1)) <|
    .cons (.answered (.elsewhere rfl)) <| .cons (.answered (.findExisting _ _)) <|
    .cons (.answered (.insertRuns hfresh)) <| .cons (.answered (.elsewhere rfl)) <|
    .cons (.acted trivial) <| .cons (.answered (.elsewhere rfl)) <|
    .cons (.answered hsecond) <| .cons (.answered (.elsewhere rfl)) <| .nil _⟩

/-- The deployment stays in the catalog whether or not somebody puts the other one, and the pass
visits it. -/
theorem passes_visit_nested_once :
    Reachable oneDeployment ∧
    (onePerPage.pass .epoch false {}).Takes (Step.courseOf () stepsOfPass)
      (.ok { pages := 2, deployments := 1, inserted := 1 }, {}) ∧
    (∀ x ∈ Step.courseOf () stepsOfPass, Calm oneDeployment x) ∧
    (∃ rounds, (∀ d, d ∈ visited rounds ↔
        oneDeployment.getDeployment d.id = some d ∧ d.isSchedulable = true) ∧
      rounds.length = 2) ∧
    (∃ s', Undergoes oneDeployment stepsOfPass s') ∧
    ∃ rounds, Rounds onePerPage .epoch false {} rounds (Step.courseOf () stepsOfPass)
        ({ pages := 2, deployments := 1, inserted := 1 }, {}) ∧
      ∃ d ∈ visited rounds, d.id = nested.id := by
  have hcalm : ∀ x ∈ Step.courseOf () stepsOfPass, Calm oneDeployment x := by
    intro x hmem
    have hmem : x ∈ firstRound.course ++ lastRound.course := hmem
    simp only [Round.course, firstRound, lastRound, nestedAlone, List.map, List.cons_append,
      List.nil_append, List.append_nil, List.mem_cons, List.not_mem_nil, or_false] at hmem
    rcases hmem with rfl | rfl | rfl | rfl | rfl | rfl | rfl | rfl | rfl
    all_goals trivial
  obtain ⟨s', hsteps⟩ := undergoes_stepsOfPass
  obtain ⟨hunchanged, hshared⟩ := passes_visit_each_once onePerPage .epoch false {}
  obtain ⟨_, _, hpass⟩ := hunchanged oneDeployment reachable_oneDeployment
  obtain ⟨rounds, _, _, heq, _, hvisited, _, _, hpages, _⟩ := hpass _ _ takes_pass hcalm
  cases heq
  obtain ⟨_, hcomplete⟩ :=
    hshared () stepsOfPass oneDeployment s' _ reachable_oneDeployment hsteps takes_pass
  obtain ⟨rounds', hrounds, _, _, hstays⟩ := hcomplete _ _ rfl rfl
  refine ⟨reachable_oneDeployment, takes_pass, hcalm, ⟨rounds, hvisited, hpages.symm⟩, ⟨s', hsteps⟩,
    rounds', hrounds, hstays nested.id fun s₁ hmoment => ⟨nested, ?_, rfl⟩⟩
  obtain ⟨before, _, _, _, after, heq, hbefore⟩ := hmoment
  rw [hbefore.getDeployment_eq reachable_oneDeployment.wellFormed fun d hmem => ?_]
  · rfl
  · have hput : .acted (.putDeployment d) .stored ∈ stepsOfPass := by
      rw [heq]
      exact List.mem_append_left _ hmem
    obtain rfl : d = { nested with id := "a" } := by simpa [stepsOfPass] using hput
    decide

end Scheduler

end RunScheduler
