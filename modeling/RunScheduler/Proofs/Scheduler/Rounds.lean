import RunScheduler.Proofs.Script
import RunScheduler.Scheduler

/-!
# Rounds of a pass

A pass of the scheduler that nothing ends early consists of rounds (`Rounds`): each lists a page,
materializes all deployments on it side by side, and notes what became of them (`Round.Deals`). The
round after begins where the page says, and the last one has a page after which there is none. A
pass ends early only if it is told to stop or a listing fails (`ends_of_takes`), and whatever rounds
there may be, a pass may consist of them (`Rounds.takes`).
-/

namespace RunScheduler.Scheduler

open Script

/-! ### One round -/

/-- What a pass does with one page. -/
structure Round where
  page : Store.Page
  outcomes : List (Except SchedulingError Materialization)
  asked : List Exchange
  listed : List Exchange
  materialized : List Exchange
  noted : List Exchange

namespace Round

/-- All that is exchanged in a round. -/
def course (r : Round) : List Exchange :=
  r.asked ++ r.listed ++ ⟨.setPhase .draining, ()⟩ :: r.materialized ++ r.noted

/-- The round deals with the page that comes next and leaves a report and the failures. -/
structure Deals (s : Scheduler) (now : Instant) (heedsStop : Bool) (p : PassState) (r : Round)
    (result : PassReport × FailureCounts) : Prop where
  asked : r.asked = (if heedsStop then [⟨.stopRequested, false⟩] else []) ++
    [⟨.setPhase .paging, ()⟩]
  listed : (s.listPage p.token).Takes r.listed (.ok r.page)
  materialized : (Script.all (max s.maxConcurrency 1)
    (r.page.deployments.map fun d => s.materializer.materialize d now)).Takes
      r.materialized r.outcomes
  noted : (s.recordAll
    { p.report with
      pages := p.report.pages + 1
      deployments := p.report.deployments + r.page.deployments.length }
    p.failures (r.page.deployments.zip r.outcomes)).Takes r.noted result

end Round

variable {s : Scheduler} {now : Instant} {heedsStop : Bool} {p : PassState}
  {course : List Exchange}

/-- A listing failed. -/
def ListingFailed (course : List Exchange) : Prop :=
  ∃ token size e, (⟨.listSchedulable token size, Except.error e⟩ : Exchange) ∈ course

/-- A pass was told to stop. -/
def ToldToStop (course : List Exchange) : Prop :=
  (⟨.stopRequested, true⟩ : Exchange) ∈ course

theorem of_listPage {token : Option String} {reply : Except StoreError Store.Page}
    (h : (s.listPage token).Takes course reply) :
    ⟨.listSchedulable token (max s.pageSize 1), reply⟩ ∈ course := by
  obtain ⟨tries, last, rfl, _, hlast⟩ :=
    Takes.exists_tries h (fun _ _ _ x hx => (trivial : (fun _ => True) x))
  rw [hlast.of_call]
  exact List.mem_append_right _ List.mem_cons_self

/-- What a step of a pass does if it is not told to stop. -/
def turn (s : Scheduler) (now : Instant) (p : PassState) : Script (PassState ⊕ PassResult) := do
  Script.call (.setPhase .paging)
  match ← s.listPage p.token with
  | .error e => return .inr (.error e, p.failures)
  | .ok page =>
    let (report, failures) ← s.drain now p page
    match s.nextToken page with
    | some id => return .inl { token := some id, report, failures }
    | none => return .inr (.ok report, failures)

/-- What a pass has come to when it is told to stop. -/
def interrupted (p : PassState) : PassResult :=
  (.ok { p.report with interrupted := true }, p.failures)

theorem passStep_eq (s : Scheduler) (now : Instant) (heedsStop : Bool) (p : PassState) :
    s.passStep now heedsStop p =
      (if heedsStop then Script.stopRequested else Script.done false).bind fun stop =>
        if stop then .done (.inr (interrupted p)) else s.turn now p := by
  cases heedsStop <;> rfl

/-- Where a pass goes on after a page. -/
def afterPage (s : Scheduler) (page : Store.Page) (result : PassReport × FailureCounts) :
    PassState ⊕ PassResult :=
  match s.nextToken page with
  | some id => .inl { token := some id, report := result.1, failures := result.2 }
  | none => .inr (.ok result.1, result.2)

section AfterPage

variable {page : Store.Page} {result : PassReport × FailureCounts}

theorem afterPage_eq_inl_iff {p' : PassState} :
    s.afterPage page result = .inl p' ↔
      ∃ id, s.nextToken page = some id ∧
        { token := some id, report := result.1, failures := result.2 } = p' := by
  rw [afterPage]
  cases s.nextToken page <;> simp

theorem afterPage_eq_inr_iff {ended : PassResult} :
    s.afterPage page result = .inr ended ↔
      s.nextToken page = none ∧ (.ok result.1, result.2) = ended := by
  rw [afterPage]
  cases s.nextToken page <;> simp

end AfterPage

/-- What comes before the listing of a page. -/
def opening (heedsStop : Bool) : List Exchange :=
  (if heedsStop then [⟨.stopRequested, false⟩] else []) ++ [⟨.setPhase .paging, ()⟩]

theorem of_passStep {outcome : PassState ⊕ PassResult}
    (h : (s.passStep now heedsStop p).Takes course outcome) :
    (∃ (round : Round) (result : PassReport × FailureCounts),
      round.Deals s now heedsStop p result ∧ course = round.course ∧
      outcome = s.afterPage round.page result) ∨
    (course = [⟨.stopRequested, true⟩] ∧ heedsStop = true ∧ outcome = .inr (interrupted p)) ∨
    ∃ listed e, course = opening heedsStop ++ listed ∧
      (s.listPage p.token).Takes listed (.error e) ∧ outcome = .inr (.error e, p.failures) := by
  rw [passStep_eq] at h
  obtain ⟨asked, rest, stop, rfl, hasked, hrest⟩ := Takes.of_bind h
  have hstop : asked = (if heedsStop then [⟨.stopRequested, stop⟩] else []) ∧
      (stop = true → heedsStop = true) := by
    cases heedsStop with
    | true => exact ⟨hasked.of_call, fun _ => rfl⟩
    | false =>
      obtain ⟨rfl, rfl⟩ := hasked.of_done
      exact ⟨rfl, nofun⟩
  obtain ⟨rfl, hheeds⟩ := hstop
  cases stop with
  | true =>
    obtain ⟨rfl, rfl⟩ := hrest.of_done
    rw [hheeds rfl]
    exact Or.inr (Or.inl ⟨rfl, rfl, rfl⟩)
  | false =>
    obtain ⟨phase, rest, _, rfl, hphase, hrest⟩ := Takes.of_bind hrest
    obtain ⟨listed, rest, reply, rfl, hlisted, hrest⟩ := Takes.of_bind hrest
    cases reply with
    | error e =>
      obtain ⟨rfl, rfl⟩ := hrest.of_done
      refine Or.inr (Or.inr ⟨listed, e, ?_, hlisted, rfl⟩)
      simp [opening, hphase.of_call]
    | ok page =>
      obtain ⟨drained, rest, ⟨report, failures⟩, rfl, hdrained, hafter⟩ := Takes.of_bind hrest
      obtain ⟨draining, drained, _, rfl, hdraining, hdrained⟩ := Takes.of_bind hdrained
      obtain ⟨materialized, noted, outcomes, rfl, hmaterialized, hnoted⟩ := Takes.of_bind hdrained
      have hlast : (Script.done (s.afterPage page (report, failures))).Takes rest outcome := by
        dsimp only at hafter
        rw [afterPage]
        cases hnext : s.nextToken page <;> rw [hnext] at hafter <;> exact hafter
      obtain ⟨rfl, rfl⟩ := hlast.of_done
      rw [hphase.of_call, hdraining.of_call]
      refine Or.inl ⟨⟨page, outcomes, _, listed, materialized, noted⟩, (report, failures),
        ⟨rfl, hlisted, hmaterialized, hnoted⟩, ?_, rfl⟩
      simp [Round.course]

theorem Round.Deals.takes {round : Round} {result : PassReport × FailureCounts}
    (h : round.Deals s now heedsStop p result) :
    (s.passStep now heedsStop p).Takes round.course (s.afterPage round.page result) := by
  have hdrained : (s.drain now p round.page).Takes
      (⟨.setPhase .draining, ()⟩ :: (round.materialized ++ round.noted)) result := by
    refine .ask ?_
    change ((Script.all _ _).bind _).Takes _ _
    exact .bind h.materialized h.noted
  have hturn : (s.turn now p).Takes (⟨.setPhase .paging, ()⟩ :: (round.listed ++
      (⟨.setPhase .draining, ()⟩ :: (round.materialized ++ round.noted) ++ [])))
      (s.afterPage round.page result) := by
    refine .ask ?_
    change ((s.listPage p.token).bind _).Takes _ _
    refine .bind h.listed (.bind hdrained ?_)
    obtain ⟨report, failures⟩ := result
    dsimp only
    rw [afterPage]
    cases s.nextToken round.page <;> exact .done _
  have hcourse : round.course = (if heedsStop then [⟨.stopRequested, false⟩] else []) ++
      ⟨.setPhase .paging, ()⟩ :: (round.listed ++
        (⟨.setPhase .draining, ()⟩ :: (round.materialized ++ round.noted) ++ [])) := by
    rw [Round.course, h.asked]
    simp
  rw [passStep_eq, hcourse]
  cases heedsStop with
  | true => exact .ask hturn
  | false => exact hturn

/-! ### All rounds -/

/-- The pass consists of rounds, one for each page. -/
inductive Rounds (s : Scheduler) (now : Instant) (heedsStop : Bool) :
    PassState → List Round → List Exchange → PassReport × FailureCounts → Prop
  | last {p : PassState} {round : Round} {result : PassReport × FailureCounts}
      (h : round.Deals s now heedsStop p result) (hnext : s.nextToken round.page = none) :
      Rounds s now heedsStop p [round] round.course result
  | more {p : PassState} {round : Round} {report : PassReport} {failures : FailureCounts}
      {id : String} {rounds : List Round} {rest : List Exchange}
      {result : PassReport × FailureCounts}
      (h : round.Deals s now heedsStop p (report, failures))
      (hnext : s.nextToken round.page = some id)
      (hrest : Rounds s now heedsStop { token := some id, report, failures } rounds rest result) :
      Rounds s now heedsStop p (round :: rounds) (round.course ++ rest) result

/-- How a pass comes to an end. -/
inductive Ends (s : Scheduler) (now : Instant) (heedsStop : Bool) (p : PassState)
    (course : List Exchange) : PassResult → Prop
  | finished {rounds : List Round} {report : PassReport} {failures : FailureCounts}
      (h : Rounds s now heedsStop p rounds course (report, failures)) :
      Ends s now heedsStop p course (.ok report, failures)
  | stopped {report : PassReport} {failures : FailureCounts} (h : ToldToStop course)
      (hreport : report.interrupted = true) : Ends s now heedsStop p course (.ok report, failures)
  | failed {e : StoreError} {failures : FailureCounts} (h : ListingFailed course) :
      Ends s now heedsStop p course (.error e, failures)

/-- A pass goes round by round until it is told to stop, a listing fails or no page is left. -/
theorem ends_of_takes {result : PassResult}
    (h : (repeatFrom p (s.passStep now heedsStop)).Takes course result) :
    Ends s now heedsStop p course result := by
  refine h.repeatFrom_induction (motive := fun p course result =>
    Ends s now heedsStop p course result) ?_ ?_
  · intro p first p' rest result hfirst ih
    rcases of_passStep hfirst with ⟨round, result, hdeals, rfl, hnext⟩ | ⟨_, _, hstop⟩ |
      ⟨_, _, _, _, herror⟩
    · obtain ⟨id, htoken, rfl⟩ := afterPage_eq_inl_iff.mp hnext.symm
      cases ih with
      | finished h => exact .finished (.more hdeals htoken h)
      | stopped h hreport => exact .stopped (List.mem_append_right _ h) hreport
      | failed h =>
        obtain ⟨token, size, e, hmem⟩ := h
        exact .failed ⟨token, size, e, List.mem_append_right _ hmem⟩
    · cases hstop
    · cases herror
  · intro p first result hfirst
    rcases of_passStep hfirst with ⟨round, result, hdeals, rfl, hnext⟩ | ⟨rfl, _, heq⟩ |
      ⟨listed, e, rfl, hlisted, heq⟩
    · obtain ⟨htoken, rfl⟩ := afterPage_eq_inr_iff.mp hnext.symm
      exact .finished (.last hdeals htoken)
    · cases heq
      exact .stopped (List.mem_singleton_self _) rfl
    · cases heq
      exact .failed ⟨_, _, e, List.mem_append_right _ (of_listPage hlisted)⟩

theorem Rounds.takes {rounds : List Round} {result : PassReport × FailureCounts}
    (h : Rounds s now heedsStop p rounds course result) :
    (repeatFrom p (s.passStep now heedsStop)).Takes course (.ok result.1, result.2) := by
  induction h with
  | last hdeals hnext =>
    have hround := hdeals.takes
    rw [afterPage_eq_inr_iff.mpr ⟨hnext, rfl⟩] at hround
    have hpass := Takes.enough hround (.done _)
    rwa [List.append_nil] at hpass
  | more hdeals hnext _ ih =>
    have hround := hdeals.takes
    rw [afterPage_eq_inl_iff.mpr ⟨_, hnext, rfl⟩] at hround
    exact .again hround ih

/-! ### What the rounds add up to -/

/-- The deployments that are materialized, in the order of the pages. -/
def visited (rounds : List Round) : List Deployment :=
  rounds.flatMap fun r => r.page.deployments

theorem of_recordAll {report : PassReport} {failures : FailureCounts}
    {outcomes : List (Deployment × Except SchedulingError Materialization)}
    {result : PassReport × FailureCounts}
    (h : (s.recordAll report failures outcomes).Takes course result) :
    result.1.pages = report.pages ∧ result.1.deployments = report.deployments ∧
      result.1.interrupted = report.interrupted := by
  induction outcomes generalizing course report failures with
  | nil =>
    obtain ⟨_, rfl⟩ := h.of_done
    exact ⟨rfl, rfl, rfl⟩
  | cons e outcomes ih =>
    obtain ⟨d, outcome⟩ := e
    obtain ⟨first, rest, ⟨report', failures'⟩, rfl, hfirst, hrest⟩ := Takes.of_bind h
    obtain ⟨hpages, hdeployments, hinterrupted⟩ := ih hrest
    suffices hnoted : report'.pages = report.pages ∧ report'.deployments = report.deployments ∧
        report'.interrupted = report.interrupted by
      exact ⟨hpages.trans hnoted.1, hdeployments.trans hnoted.2.1, hinterrupted.trans hnoted.2.2⟩
    cases outcome with
    | ok done =>
      cases hfirst.of_done.2
      exact ⟨rfl, rfl, rfl⟩
    | error e =>
      simp only [record] at hfirst
      split_ifs at hfirst
      · obtain ⟨_, _, _, _, _, hlast⟩ := Takes.of_bind hfirst
        cases hlast.of_done.2
        exact ⟨rfl, rfl, rfl⟩
      · cases hfirst.of_done.2
        exact ⟨rfl, rfl, rfl⟩

theorem Rounds.report_eq {rounds : List Round} {result : PassReport × FailureCounts}
    (h : Rounds s now heedsStop p rounds course result) :
    result.1.pages = p.report.pages + rounds.length ∧
      result.1.deployments = p.report.deployments + (visited rounds).length ∧
      result.1.interrupted = p.report.interrupted := by
  induction h with
  | last h _ =>
    obtain ⟨hpages, hdeployments, hinterrupted⟩ := of_recordAll h.noted
    exact ⟨hpages, by simpa [visited] using hdeployments, hinterrupted⟩
  | more h _ _ ih =>
    obtain ⟨hpages, hdeployments, hinterrupted⟩ := of_recordAll h.noted
    obtain ⟨hpages', hdeployments', hinterrupted'⟩ := ih
    refine ⟨?_, ?_, hinterrupted'.trans hinterrupted⟩
    · rw [hpages', hpages, List.length_cons, Nat.add_assoc, Nat.add_comm 1]
    · rw [hdeployments', hdeployments, visited, visited, List.flatMap_cons, List.length_append,
        Nat.add_assoc]

end RunScheduler.Scheduler
