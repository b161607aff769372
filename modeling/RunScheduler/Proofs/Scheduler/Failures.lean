import RunScheduler.Proofs.Scheduler.Paging

/-!
# Failures in a row

A scheduler counts for each deployment how many of the latest attempts to materialize it failed. The
counts live on from pass to pass, and a pass may be told to stop, fail to list a page, or not list a
deployment at all. How many attempts failed in a row is said by the history of all attempts alone
(`failuresInARow`). A count has 32 bits (`keptCount`): it is that number as long as fewer than
`2 ^ 32` attempts failed, and starts again at zero with the failure that makes them so many
(`not_count_eq_failuresInARow`). It is the count that decides what is made known (`noticesOf`).

Attempts of a page end in any order, so the relation for what passes do (`Goes`) leaves open in
which order they are noted. One attempt that is noted keeps the counts in step with the history
(`noting_record`), hence so do those of a page, of a pass and of any sequence of passes
(`failures_in_a_row_of_passes`).
-/

namespace RunScheduler

open Script Store

namespace Exchange

/-- The event by which a deployment that fails again and again is made known. -/
def failureNotice? : Exchange → Option Event
  | ⟨.emit (.schedulingFailed d n e), _⟩ => some (.schedulingFailed d n e)
  | _ => none

/-- The page that was listed. -/
def page? : Exchange → Option Store.Page
  | ⟨.listSchedulable _ _, .ok page⟩ => some page
  | _ => none

end Exchange

namespace Scheduler

/-! ### Attempts and what follows from them -/

/-- A deployment that was materialized, and what came of it. -/
abbrev Attempt := Deployment × Except SchedulingError Materialization

def hasFailed : Attempt → Bool
  | (_, .ok _) => false
  | (_, .error _) => true

/-- The runs that an attempt stored by its own account; one that failed gives none. -/
def storedBy : Attempt → Nat
  | (_, .ok report) => report.inserted
  | (_, .error _) => 0

def failedIds (attempts : List Attempt) : List String :=
  (attempts.filter hasFailed).map (·.1.id)

/-- How many of the latest attempts at a deployment failed, one after another. -/
def failuresInARow (id : String) (attempts : List Attempt) : Nat :=
  ((attempts.filter fun a => a.1.id = id).reverse.takeWhile hasFailed).length

/-- The 32 bits of the number of failures in a row that a scheduler keeps. -/
def keptCount (id : String) (attempts : List Attempt) : UInt32 :=
  .ofNat (failuresInARow id attempts)

theorem toNat_keptCount_eq_iff {id : String} {attempts : List Attempt} :
    (keptCount id attempts).toNat = failuresInARow id attempts ↔
      failuresInARow id attempts < UInt32.size := by
  rw [keptCount, UInt32.toNat_ofNat']
  exact Nat.mod_eq_iff_lt (by decide)

/-- What is to be made known of an attempt after a history: that it failed, if it did and the count
of its deployment has by now reached the threshold. -/
def notice (threshold : UInt32) (history : List Attempt) (a : Attempt) : List Event :=
  match a.2 with
  | .ok _ => []
  | .error e =>
    let count := keptCount a.1.id (history ++ [a])
    if threshold ≤ count then [.schedulingFailed a.1.id count e.message] else []

/-- What is to be made known of attempts one after another. -/
def noticesOf (threshold : UInt32) (history : List Attempt) : List Attempt → List Event
  | [] => []
  | a :: attempts => notice threshold history a ++ noticesOf threshold (history ++ [a]) attempts

theorem noticesOf_append (threshold : UInt32) (history attempts later : List Attempt) :
    noticesOf threshold history (attempts ++ later) =
      noticesOf threshold history attempts ++ noticesOf threshold (history ++ attempts) later := by
  induction attempts generalizing history with
  | nil => simp [noticesOf]
  | cons a attempts ih => simp [noticesOf, ih]

theorem failuresInARow_concat (id : String) (history : List Attempt) (a : Attempt) :
    failuresInARow id (history ++ [a]) =
      if a.1.id = id then (if hasFailed a then failuresInARow id history + 1 else 0)
      else failuresInARow id history := by
  have hlast : (history ++ [a]).filter (fun a => a.1.id = id) =
      history.filter (fun a => a.1.id = id) ++ if a.1.id = id then [a] else [] := by
    simp [List.filter_cons]
  rw [failuresInARow, hlast]
  split_ifs with hid hfailed
  · simp [failuresInARow, hfailed]
  · simp [hfailed]
  · rw [List.append_nil, failuresInARow]

/-- One more attempt, as the count has it: the failure after the greatest count gives zero. -/
theorem keptCount_concat (id : String) (history : List Attempt) (a : Attempt) :
    keptCount id (history ++ [a]) =
      if a.1.id = id then (if hasFailed a then keptCount id history + 1 else 0)
      else keptCount id history := by
  rw [keptCount, failuresInARow_concat]
  split_ifs
  · rw [UInt32.ofNat_add]
    rfl
  · rfl
  · rfl

/-- A report to which the attempts are added. -/
def noting (report : PassReport) (attempts : List Attempt) : PassReport :=
  { report with
    inserted := report.inserted + (attempts.map storedBy).sum
    failed := report.failed ++ failedIds attempts }

theorem noting_append (report : PassReport) (attempts later : List Attempt) :
    noting (noting report attempts) later = noting report (attempts ++ later) := by
  simp [noting, failedIds, Nat.add_assoc]

/-! ### What exchanges make known and list -/

/-- The events that make failures known, in the order in which they are emitted. -/
def notices (course : List Exchange) : List Event :=
  course.filterMap Exchange.failureNotice?

/-- The deployments on the pages that were listed, in their order. -/
def listed (course : List Exchange) : List Deployment :=
  (course.filterMap Exchange.page?).flatMap (·.deployments)

theorem notices_append (course rest : List Exchange) :
    notices (course ++ rest) = notices course ++ notices rest :=
  List.filterMap_append

theorem listed_append (course rest : List Exchange) :
    listed (course ++ rest) = listed course ++ listed rest := by
  rw [listed, List.filterMap_append, List.flatMap_append, listed, listed]

/-- The exchange makes no failure known and lists no page. -/
def Quiet (x : Exchange) : Prop :=
  x.failureNotice? = none ∧ x.page? = none

theorem notices_of_quiet {course : List Exchange} (h : ∀ x ∈ course, Quiet x) :
    notices course = [] :=
  List.filterMap_eq_nil_iff.mpr fun x hx => (h x hx).1

theorem listed_of_quiet {course : List Exchange} (h : ∀ x ∈ course, Quiet x) :
    listed course = [] := by
  rw [listed, List.filterMap_eq_nil_iff.mpr fun x hx => (h x hx).2, List.flatMap_nil]

/-- Whatever is replied to the request, the exchange is quiet. -/
def AlwaysQuiet (request : Request) : Prop :=
  ∀ reply, Quiet ⟨request, reply⟩

theorem quiet_of_asks {α : Type} {script : Script α} {course : List Exchange} {a : α}
    (h : Asks AlwaysQuiet script) (htakes : script.Takes course a) : ∀ x ∈ course, Quiet x :=
  fun x hx => h course a htakes x hx x.reply

end Scheduler

namespace Materializer

open Scheduler

variable {m : Materializer} {d : Deployment} {now : Instant}

theorem quiet_announce (chunk : List PlannedRun) (inserted : Nat) :
    Asks AlwaysQuiet (announce d chunk inserted) := by
  by_cases hne : chunk = []
  · rw [hne]
    exact .done ()
  · rw [announce_eq hne]
    split_ifs
    · exact .call fun _ => ⟨rfl, rfl⟩
    · exact .done ()

theorem quiet_insertChunks (report : Materialization) (chunks : List (List PlannedRun)) :
    Asks AlwaysQuiet (m.insertChunks d report chunks) := by
  induction chunks generalizing report with
  | nil => exact .done _
  | cons chunk chunks ih =>
    rw [insertChunks]
    refine .bind (.retry (.call fun _ => ⟨rfl, rfl⟩) fun _ _ => ⟨rfl, rfl⟩) fun outcome => ?_
    cases outcome with
    | error e => exact .done _
    | ok inserted => exact .bind (quiet_announce chunk inserted) fun _ => ih _

theorem quiet_materialize : Asks AlwaysQuiet (m.materialize d now) := by
  rw [materialize]
  split_ifs
  · exact .done _
  · refine .bind (.retry (.call fun _ => ⟨rfl, rfl⟩) fun _ _ => ⟨rfl, rfl⟩) fun outcome => ?_
    cases outcome with
    | error e => exact .done _
    | ok existing => exact quiet_insertChunks _ _

end Materializer

namespace Scheduler

variable {s : Scheduler} {now : Instant} {heedsStop : Bool} {p : PassState}
  {course : List Exchange} {failures : FailureCounts} {history : List Attempt}
  {report : PassReport}

theorem notices_and_listed_of_listPage {token : Option String}
    {reply : Except StoreError Store.Page} (h : (s.listPage token).Takes course reply) :
    notices course = [] ∧ listed course = reply.toOption.elim [] (·.deployments) := by
  have hfailed : ∀ first e,
      (Script.call (.listSchedulable token (max s.pageSize 1))).Takes first (.error e) →
        ∀ x ∈ first, Quiet x := fun first e hfirst x hx => by
    rw [hfirst.of_call, List.mem_singleton] at hx
    rw [hx]
    exact ⟨rfl, rfl⟩
  obtain ⟨tries, last, rfl, htries, hlast⟩ := Takes.exists_tries h hfailed
  have hquiet : ∀ x ∈ tries, Quiet x := fun x hx => by
    rcases htries x hx with hquiet | ⟨_, rfl⟩
    · exact hquiet
    · exact ⟨rfl, rfl⟩
  rw [notices_append, listed_append, notices_of_quiet hquiet, listed_of_quiet hquiet, hlast.of_call]
  cases reply with
  | error e => exact ⟨rfl, rfl⟩
  | ok page => exact ⟨rfl, List.append_nil _⟩

theorem quiet_opening : ∀ x ∈ opening heedsStop, Quiet x := by
  cases heedsStop <;> simp [opening, Quiet, Exchange.failureNotice?, Exchange.page?]

/-! ### Noting attempts -/

/-- The counts are those of the failures in a row that the history has. -/
def Counts (failures : FailureCounts) (history : List Attempt) : Prop :=
  ∀ id, failures.count id = keptCount id history

theorem Counts.nil : Counts {} [] := fun _ => rfl

/-- Attempts were noted after a history: in the report, in the counts and by what is made known. -/
structure Noting (threshold : UInt32) (history attempts : List Attempt) (report : PassReport)
    (course : List Exchange) (result : PassReport × FailureCounts) : Prop where
  report_eq : result.1 = noting report attempts
  counts : Counts result.2 (history ++ attempts)
  notices_eq : notices course = noticesOf threshold history attempts
  listed_eq : listed course = []

theorem noting_record {a : Attempt} {result : PassReport × FailureCounts}
    (hcounts : Counts failures history)
    (h : (s.record report failures a.1 a.2).Takes course result) :
    Noting s.failureThreshold history [a] report course result := by
  obtain ⟨d, outcome⟩ := a
  cases outcome with
  | ok done =>
    obtain ⟨rfl, rfl⟩ := h.of_done
    refine ⟨?_, fun id => ?_, rfl, rfl⟩
    · simp [noting, failedIds, hasFailed, storedBy]
    · rw [FailureCounts.count, Table.get?_erase, keptCount_concat, ← hcounts id]
      by_cases hid : d.id = id
      · rw [if_pos hid, if_pos hid]
        rfl
      · rw [if_neg hid, if_neg hid]
        rfl
  | error e =>
    have hcount : failures.count d.id + 1 = keptCount d.id (history ++ [(d, .error e)]) := by
      rw [keptCount_concat, if_pos rfl, ← hcounts d.id]
      rfl
    have hcounts' : Counts (failures.insert d.id (failures.count d.id + 1))
        (history ++ [(d, .error e)]) := fun id => by
      rw [FailureCounts.count, Table.get?_insert]
      by_cases hid : d.id = id
      · rw [if_pos hid, ← hid]
        exact hcount
      · rw [if_neg hid, keptCount_concat, if_neg hid]
        exact hcounts id
    have hreport : { report with failed := report.failed ++ [d.id] } =
        noting report [(d, .error e)] := rfl
    simp only [record] at h
    split_ifs at h with hoften
    · obtain ⟨emitted, rest, _, rfl, hemitted, hrest⟩ := Takes.of_bind h
      obtain ⟨rfl, rfl⟩ := hrest.of_done
      rw [hemitted.of_call]
      refine ⟨hreport, hcounts', ?_, rfl⟩
      rw [hcount] at hoften ⊢
      simp [noticesOf, notice, hoften, notices, Exchange.failureNotice?]
    · obtain ⟨rfl, rfl⟩ := h.of_done
      refine ⟨hreport, hcounts', ?_, rfl⟩
      rw [hcount] at hoften
      simp [noticesOf, notice, hoften, notices]

theorem noting_recordAll {attempts : List Attempt} {result : PassReport × FailureCounts}
    (hcounts : Counts failures history)
    (h : (s.recordAll report failures attempts).Takes course result) :
    Noting s.failureThreshold history attempts report course result := by
  induction attempts generalizing report failures history course with
  | nil =>
    obtain ⟨rfl, rfl⟩ := h.of_done
    refine ⟨?_, ?_, rfl, rfl⟩
    · simp [noting, failedIds]
    · rw [List.append_nil]
      exact hcounts
  | cons a attempts ih =>
    obtain ⟨first, rest, ⟨report', failures'⟩, rfl, hfirst, hrest⟩ := Takes.of_bind h
    have hnoted := noting_record (a := a) hcounts hfirst
    have hlater := ih hnoted.counts hrest
    refine ⟨?_, ?_, ?_, ?_⟩
    · rw [hlater.report_eq, show report' = noting report [a] from hnoted.report_eq, noting_append,
        List.singleton_append]
    · rw [← List.singleton_append, ← List.append_assoc]
      exact hlater.counts
    · rw [notices_append, hnoted.notices_eq, hlater.notices_eq, ← noticesOf_append,
        List.singleton_append]
    · rw [listed_append, hnoted.listed_eq, hlater.listed_eq, List.append_nil]

/-! ### Passes whose attempts end in any order -/

/-- A round with its attempts in the order in which they are noted. -/
structure Turn extends Round where
  attempts : List Attempt

namespace Turn

/-- The turn deals with the page that comes next, as a round does, but notes its attempts in any
order. -/
structure Deals (s : Scheduler) (now : Instant) (heedsStop : Bool) (p : PassState) (t : Turn)
    (result : PassReport × FailureCounts) : Prop where
  asked : t.asked = opening heedsStop
  listed : (s.listPage p.token).Takes t.listed (.ok t.page)
  materialized : (Script.all (max s.maxConcurrency 1)
    (t.page.deployments.map fun d => s.materializer.materialize d now)).Takes
      t.materialized t.outcomes
  order : t.attempts.Perm (t.page.deployments.zip t.outcomes)
  noted : (s.recordAll
    { p.report with
      pages := p.report.pages + 1
      deployments := p.report.deployments + t.page.deployments.length }
    p.failures t.attempts).Takes t.noted result

variable {t : Turn} {result : PassReport × FailureCounts}

theorem Deals.attempted (h : t.Deals s now heedsStop p result) :
    (t.attempts.map (·.1)).Perm t.page.deployments := by
  obtain ⟨_, _, outcome, houtcomes, _⟩ := Takes.of_all h.materialized
  have hlength : t.page.deployments.length ≤ t.outcomes.length := by
    rw [houtcomes, List.length_ofFn, List.length_map]
  have hfst := h.order.map (·.1)
  rwa [List.map_fst_zip hlength] at hfst

theorem Deals.notices_and_listed (h : t.Deals s now heedsStop p result) :
    notices t.course = notices t.noted ∧ Scheduler.listed t.course =
      t.page.deployments ++ Scheduler.listed t.noted := by
  have hmaterialized : ∀ x ∈ t.materialized, Quiet x := by
    refine quiet_of_asks (.all fun job hjob => ?_) h.materialized
    obtain ⟨d, _, rfl⟩ := List.mem_map.mp hjob
    exact Materializer.quiet_materialize
  have hdraining : ∀ x ∈ ⟨.setPhase .draining, ()⟩ :: t.materialized, Quiet x :=
    List.forall_mem_cons.mpr ⟨⟨rfl, rfl⟩, hmaterialized⟩
  obtain ⟨hnone, hpage⟩ := notices_and_listed_of_listPage h.listed
  rw [Round.course, h.asked, notices_append, notices_append, notices_append, listed_append,
    listed_append, listed_append, hnone, hpage, notices_of_quiet quiet_opening,
    notices_of_quiet hdraining, listed_of_quiet quiet_opening, listed_of_quiet hdraining]
  exact ⟨rfl, by simp [Except.toOption]⟩

/-- A round of a pass is a turn that notes its attempts in the order of the page. -/
def ofRound (round : Round) : Turn :=
  ⟨round, round.page.deployments.zip round.outcomes⟩

theorem deals_ofRound {round : Round} (h : round.Deals s now heedsStop p result) :
    (ofRound round).Deals s now heedsStop p result :=
  ⟨h.asked, h.listed, h.materialized, .refl _, h.noted⟩

end Turn

/-- The pass goes through pages turn by turn until it is told to stop, a listing fails or no page is
left. -/
inductive Goes (s : Scheduler) (now : Instant) (heedsStop : Bool) :
    PassState → List Turn → List Exchange → PassResult → Prop
  | stopped {p : PassState} (h : heedsStop = true) :
      Goes s now heedsStop p [] [⟨.stopRequested, true⟩] (interrupted p)
  | failed {p : PassState} {listed : List Exchange} {e : StoreError}
      (h : (s.listPage p.token).Takes listed (.error e)) :
      Goes s now heedsStop p [] (opening heedsStop ++ listed) (.error e, p.failures)
  | last {p : PassState} {t : Turn} {result : PassReport × FailureCounts}
      (h : t.Deals s now heedsStop p result) (hnext : s.nextToken t.page = none) :
      Goes s now heedsStop p [t] t.course (.ok result.1, result.2)
  | more {p : PassState} {t : Turn} {report : PassReport} {failures : FailureCounts} {id : String}
      {turns : List Turn} {rest : List Exchange} {result : PassResult}
      (h : t.Deals s now heedsStop p (report, failures)) (hnext : s.nextToken t.page = some id)
      (hrest : Goes s now heedsStop { token := some id, report, failures } turns rest result) :
      Goes s now heedsStop p (t :: turns) (t.course ++ rest) result

theorem goes_of_takes {result : PassResult}
    (h : (repeatFrom p (s.passStep now heedsStop)).Takes course result) :
    ∃ turns, Goes s now heedsStop p turns course result := by
  refine h.repeatFrom_induction (motive := fun p course result =>
    ∃ turns, Goes s now heedsStop p turns course result) ?_ ?_
  · intro p first p' rest result hfirst ⟨turns, hturns⟩
    rcases of_passStep hfirst with ⟨round, result, hdeals, rfl, hnext⟩ | ⟨_, _, hstop⟩ |
      ⟨_, _, _, _, herror⟩
    · obtain ⟨id, htoken, rfl⟩ := afterPage_eq_inl_iff.mp hnext.symm
      exact ⟨.ofRound round :: turns, .more (Turn.deals_ofRound hdeals) htoken hturns⟩
    · cases hstop
    · cases herror
  · intro p first result hfirst
    rcases of_passStep hfirst with ⟨round, result, hdeals, rfl, hnext⟩ | ⟨rfl, hheeds, heq⟩ |
      ⟨listed, e, rfl, hlisted, heq⟩
    · obtain ⟨htoken, rfl⟩ := afterPage_eq_inr_iff.mp hnext.symm
      exact ⟨[.ofRound round], .last (Turn.deals_ofRound hdeals) htoken⟩
    · cases heq
      exact ⟨[], .stopped hheeds⟩
    · cases heq
      exact ⟨[], .failed hlisted⟩

/-! ### What a pass comes to -/

/-- The attempts of turns, in the order in which they are noted. -/
def attemptsIn (turns : List Turn) : List Attempt :=
  turns.flatMap (·.attempts)

/-- What a pass comes to, from where it is and after a history. -/
structure Tallies (s : Scheduler) (history : List Attempt) (p : PassState) (attempts : List Attempt)
    (course : List Exchange) (result : PassResult) : Prop where
  counts : Counts result.2 (history ++ attempts)
  notices_eq : notices course = noticesOf s.failureThreshold history attempts
  attempted : (attempts.map (·.1)).Perm (listed course)
  deployments_eq : ∀ report, result.1 = .ok report →
    report.deployments = p.report.deployments + attempts.length
  inserted_eq : ∀ report, result.1 = .ok report →
    report.inserted = p.report.inserted + (attempts.map storedBy).sum
  failed_eq : ∀ report, result.1 = .ok report →
    report.failed = p.report.failed ++ failedIds attempts

theorem Tallies.nothing {result : PassResult} (hcounts : Counts result.2 history)
    (hquiet : notices course = [] ∧ listed course = [])
    (hreport : ∀ report, result.1 = .ok report → report.deployments = p.report.deployments ∧
      report.inserted = p.report.inserted ∧ report.failed = p.report.failed) :
    Tallies s history p [] course result where
  counts := by rwa [List.append_nil]
  notices_eq := hquiet.1
  attempted := by rw [hquiet.2]; exact .nil
  deployments_eq report h := (hreport report h).1
  inserted_eq report h := (hreport report h).2.1
  failed_eq report h := by rw [failedIds, List.filter_nil, List.map_nil, List.append_nil,
    (hreport report h).2.2]

theorem Turn.Deals.tallies {t : Turn} {result : PassReport × FailureCounts}
    (h : t.Deals s now heedsStop p result) (hcounts : Counts p.failures history) :
    Tallies s history p t.attempts t.course (.ok result.1, result.2) := by
  have hnoted := noting_recordAll hcounts h.noted
  obtain ⟨hnotices, hlisted⟩ := h.notices_and_listed
  rw [hnoted.notices_eq] at hnotices
  rw [hnoted.listed_eq, List.append_nil] at hlisted
  have hlength := h.attempted.length_eq
  rw [List.length_map] at hlength
  refine ⟨hnoted.counts, hnotices, hlisted ▸ h.attempted, ?_, ?_, ?_⟩
  all_goals
    intro report hreport
    cases hreport
    rw [hnoted.report_eq]
  · rw [hlength]
    rfl
  · rfl
  · rfl

theorem Tallies.append {report : PassReport} {token : Option String} {result : PassResult}
    {attempts later : List Attempt} {rest : List Exchange}
    (h : Tallies s history p attempts course (.ok report, failures))
    (hrest : Tallies s (history ++ attempts) { token, report, failures } later rest result) :
    Tallies s history p (attempts ++ later) (course ++ rest) result where
  counts := by
    rw [← List.append_assoc]
    exact hrest.counts
  notices_eq := by
    rw [notices_append, h.notices_eq, hrest.notices_eq, noticesOf_append]
  attempted := by
    rw [List.map_append, listed_append]
    exact h.attempted.append hrest.attempted
  deployments_eq final hfinal := by
    rw [hrest.deployments_eq final hfinal, List.length_append, ← Nat.add_assoc]
    exact congrArg (· + later.length) (h.deployments_eq report rfl)
  inserted_eq final hfinal := by
    rw [hrest.inserted_eq final hfinal, List.map_append, List.sum_append, ← Nat.add_assoc]
    exact congrArg (· + (later.map storedBy).sum) (h.inserted_eq report rfl)
  failed_eq final hfinal := by
    rw [hrest.failed_eq final hfinal, failedIds, failedIds, List.filter_append, List.map_append,
      ← List.append_assoc]
    exact congrArg (· ++ failedIds later) (h.failed_eq report rfl)

theorem Goes.tallies {turns : List Turn} {result : PassResult}
    (h : Goes s now heedsStop p turns course result) (hcounts : Counts p.failures history) :
    Tallies s history p (attemptsIn turns) course result := by
  induction h generalizing history with
  | stopped _ =>
    refine .nothing hcounts ⟨rfl, rfl⟩ fun report hreport => ?_
    cases hreport
    exact ⟨rfl, rfl, rfl⟩
  | failed h =>
    obtain ⟨hnotices, hlisted⟩ := notices_and_listed_of_listPage h
    refine .nothing hcounts ⟨?_, ?_⟩ nofun
    · rw [notices_append, notices_of_quiet quiet_opening, hnotices, List.append_nil]
    · rw [listed_append, listed_of_quiet quiet_opening, hlisted]
      rfl
  | last h _ =>
    rw [attemptsIn, List.flatMap_singleton]
    exact h.tallies hcounts
  | more h _ _ ih =>
    have hfirst := h.tallies hcounts
    rw [attemptsIn, List.flatMap_cons]
    exact hfirst.append (ih hfirst.counts)

/-- How a pass comes to an end: after a page that has none after it, or because it is told to stop
or a listing fails. -/
inductive Concludes (s : Scheduler) (turns : List Turn) (course : List Exchange) :
    Except StoreError PassReport → Prop
  | finished {report : PassReport} {t : Turn} (hreport : report.interrupted = false)
      (hlast : turns.getLast? = some t) (hnext : s.nextToken t.page = none) :
      Concludes s turns course (.ok report)
  | told {report : PassReport} (hreport : report.interrupted = true) (h : ToldToStop course) :
      Concludes s turns course (.ok report)
  | failed {e : StoreError} (h : ListingFailed course) : Concludes s turns course (.error e)

theorem Goes.concludes {turns : List Turn} {result : PassResult}
    (h : Goes s now heedsStop p turns course result) (hp : p.report.interrupted = false) :
    Concludes s turns course result.1 := by
  have hkept {p : PassState} {t : Turn} {result : PassReport × FailureCounts}
      (h : t.Deals s now heedsStop p result) : result.1.interrupted = p.report.interrupted := by
    obtain ⟨_, _, hinterrupted⟩ := of_recordAll h.noted
    exact hinterrupted
  induction h with
  | stopped _ => exact .told rfl (List.mem_singleton_self _)
  | failed h => exact .failed ⟨_, _, _, List.mem_append_right _ (of_listPage h)⟩
  | last h hnext => exact .finished ((hkept h).trans hp) rfl hnext
  | @more _ _ _ _ _ _ _ result h _ _ ih =>
    have hrest := ih ((hkept h).trans hp)
    generalize result.1 = reply at hrest ⊢
    cases hrest with
    | finished hreport hlast hnext =>
      exact .finished hreport (by rw [List.getLast?_cons, hlast]; rfl) hnext
    | told hreport h => exact .told hreport (List.mem_append_right _ h)
    | failed h =>
      obtain ⟨token, size, e, hmem⟩ := h
      exact .failed ⟨token, size, e, List.mem_append_right _ hmem⟩

/-! ### Pages of catalogs -/

/-- Every page that was listed is one of a catalog, as it was at some moment. -/
def FromCatalogs (course : List Exchange) : Prop :=
  ∀ token size page, (⟨.listSchedulable token size, Except.ok page⟩ : Exchange) ∈ course →
    ∃ catalog, Reachable catalog ∧ page = catalog.listSchedulable token size

/-- Whatever happens to the catalog between the pages, no deployment is on two of them. -/
theorem Goes.pairwise_pages {turns : List Turn} {result : PassResult}
    (h : Goes s now heedsStop p turns course result) (hpages : FromCatalogs course) :
    (∀ d ∈ turns.flatMap (·.page.deployments), Follows p.token d.id) ∧
      (turns.flatMap (·.page.deployments)).Pairwise fun d d' => d.id < d'.id := by
  have hpage {p : PassState} {t : Turn} (rest : List Exchange)
      {result : PassReport × FailureCounts} (h : t.Deals s now heedsStop p result)
      (hpages : FromCatalogs (t.course ++ rest)) :
      ∃ catalog : Store, catalog.CatalogOrdered ∧
        t.page = catalog.listSchedulable p.token (max s.pageSize 1) := by
    obtain ⟨catalog, hcatalog, heq⟩ := hpages p.token (max s.pageSize 1) t.page
      (by simp [Round.course, of_listPage h.listed])
    exact ⟨catalog, hcatalog.catalogOrdered, heq⟩
  induction h with
  | stopped _ => exact ⟨by simp, .nil⟩
  | failed _ => exact ⟨by simp, .nil⟩
  | last h _ =>
    obtain ⟨catalog, hordered, heq⟩ := hpage [] h (by rwa [List.append_nil])
    rw [List.flatMap_singleton, heq]
    exact ⟨fun d hd => (hordered.of_mem_listSchedulable s.pageSize_pos hd).2,
      hordered.pairwise_listSchedulable s.pageSize_pos⟩
  | more h hnext _ ih =>
    obtain ⟨catalog, hordered, heq⟩ := hpage _ h hpages
    obtain ⟨hlater, hpairwise⟩ := ih fun token size page hmem =>
      hpages token size page (List.mem_append_right _ hmem)
    rw [heq, nextToken_listSchedulable] at hnext
    obtain ⟨_, _, hfollows, _⟩ := hordered.of_next_eq_some s.pageSize_pos hnext
    rw [List.flatMap_cons, heq]
    refine ⟨fun d hd => ?_, List.pairwise_append.mpr
      ⟨hordered.pairwise_listSchedulable s.pageSize_pos, hpairwise, fun d hd d' hd' => ?_⟩⟩
    · rcases List.mem_append.mp hd with hd | hd
      · exact (hordered.of_mem_listSchedulable s.pageSize_pos hd).2
      · exact fun last hlast => (hfollows last hlast).trans (hlater d hd _ rfl)
    · exact (hordered.le_of_next_eq_some s.pageSize_pos hnext hd).trans_lt (hlater d' hd' _ rfl)

theorem Goes.nodup_attempts {turns : List Turn} {result : PassResult}
    (h : Goes s now heedsStop p turns course result) (hpages : FromCatalogs course) :
    ((attemptsIn turns).map (·.1.id)).Nodup := by
  have hperm : ((attemptsIn turns).map (·.1)).Perm (turns.flatMap (·.page.deployments)) := by
    clear hpages
    induction h with
    | stopped _ => exact .nil
    | failed _ => exact .nil
    | last h _ =>
      rw [attemptsIn, List.flatMap_singleton, List.flatMap_singleton]
      exact h.attempted
    | more h _ _ ih =>
      rw [attemptsIn, List.flatMap_cons, List.flatMap_cons, List.map_append]
      exact h.attempted.append ih
  have hids := hperm.map Deployment.id
  rw [List.map_map] at hids
  refine hids.nodup_iff.mpr (List.pairwise_map.mpr ?_)
  exact (h.pairwise_pages hpages).2.imp fun hlt => hlt.ne

/-! ### Passes one after another -/

/-- A pass that a scheduler was called for, and how it went. -/
structure PassCall where
  now : Instant
  heedsStop : Bool
  turns : List Turn
  course : List Exchange
  result : Except StoreError PassReport

/-- What the pass attempted, in the order in which it noted it. -/
def PassCall.attempts (call : PassCall) : List Attempt :=
  attemptsIn call.turns

/-- All that was attempted by passes one after another. -/
def attemptsOf (calls : List PassCall) : List Attempt :=
  calls.flatMap (·.attempts)

/-- The scheduler makes passes, each with the counts that the one before left. -/
inductive Passes (s : Scheduler) : FailureCounts → List PassCall → FailureCounts → Prop
  | nil (failures : FailureCounts) : Passes s failures [] failures
  | cons {failures failures' failures'' : FailureCounts} {call : PassCall} {calls : List PassCall}
      (h : Goes s call.now call.heedsStop { failures } call.turns call.course
        (call.result, failures'))
      (hrest : Passes s failures' calls failures'') : Passes s failures (call :: calls) failures''

variable {calls : List PassCall} {failures' : FailureCounts}

theorem Passes.counts (h : Passes s failures calls failures') (hcounts : Counts failures history) :
    Counts failures' (history ++ attemptsOf calls) := by
  induction h generalizing history with
  | nil =>
    rw [attemptsOf, List.flatMap_nil, List.append_nil]
    exact hcounts
  | cons h _ ih =>
    rw [attemptsOf, List.flatMap_cons, ← List.append_assoc]
    exact ih (h.tallies hcounts).counts

theorem Passes.of_append_cons {before after : List PassCall} {call : PassCall}
    (h : Passes s failures (before ++ call :: after) failures') :
    ∃ mid mid', Passes s failures before mid ∧
      Goes s call.now call.heedsStop { failures := mid } call.turns call.course
        (call.result, mid') := by
  induction before generalizing failures with
  | nil =>
    cases h with
    | cons h _ => exact ⟨failures, _, .nil failures, h⟩
  | cons first before ih =>
    cases h with
    | cons h hrest =>
      obtain ⟨mid, mid', hbefore, hgoes⟩ := ih hrest
      exact ⟨mid, mid', .cons h hbefore, hgoes⟩

/-- **Failures are counted over passes as the history of attempts has them.**

A pass goes turn by turn, whatever it is told. After any passes of a scheduler one after another,
in which the attempts of each page were noted in any order, the count of a deployment has the 32
bits of the number of its latest attempts that failed in a row; it is this number exactly as long as
they are fewer than `2 ^ 32`. Each of the passes made known exactly those failed attempts with which
the count reached the threshold. It attempted every deployment that it listed, and it came to a page
after which there is none unless it was told to stop or a listing failed. If it ended with a report,
the report counts the attempts, adds up what the successful ones stored and names the deployments
that failed.

Where each page is one of a catalog, which may be another one for each page, no deployment was
attempted twice in a pass, so none is named twice in its report. -/
theorem failures_in_a_row_of_passes (s : Scheduler) :
    (∀ now heedsStop failures course result,
      (s.pass now heedsStop failures).Takes course result →
        ∃ turns, Goes s now heedsStop { failures } turns course result) ∧
    ∀ calls failures, Passes s {} calls failures →
      (∀ id, failures.count id = keptCount id (attemptsOf calls) ∧
        ((failures.count id).toNat = failuresInARow id (attemptsOf calls) ↔
          failuresInARow id (attemptsOf calls) < UInt32.size)) ∧
      ∀ before call after, calls = before ++ call :: after →
        notices call.course = noticesOf s.failureThreshold (attemptsOf before) call.attempts ∧
        (call.attempts.map (·.1)).Perm (listed call.course) ∧
        Concludes s call.turns call.course call.result ∧
        (FromCatalogs call.course → (call.attempts.map (·.1.id)).Nodup) ∧
        ∀ report, call.result = .ok report →
          report.deployments = call.attempts.length ∧
          report.inserted = (call.attempts.map storedBy).sum ∧
          report.failed = failedIds call.attempts ∧
          (FromCatalogs call.course → report.failed.Nodup) := by
  refine ⟨fun now heedsStop failures course result h => goes_of_takes h,
    fun calls failures hpasses => ⟨fun id => ?_, ?_⟩⟩
  · have hcount : failures.count id = keptCount id (attemptsOf calls) :=
      hpasses.counts Counts.nil id
    rw [hcount]
    exact ⟨rfl, toNat_keptCount_eq_iff⟩
  rintro before call after rfl
  obtain ⟨mid, mid', hbefore, hgoes⟩ := hpasses.of_append_cons
  have htallies := hgoes.tallies (hbefore.counts Counts.nil)
  have hnodup := hgoes.nodup_attempts
  refine ⟨htallies.notices_eq, htallies.attempted, hgoes.concludes rfl, hnodup,
    fun report hreport => ?_⟩
  have hfailed : report.failed = failedIds call.attempts := htallies.failed_eq report hreport
  refine ⟨?_, ?_, hfailed, fun hpages => ?_⟩
  · exact (htallies.deployments_eq report hreport).trans (Nat.zero_add _)
  · exact (htallies.inserted_eq report hreport).trans (Nat.zero_add _)
  · rw [hfailed]
    exact (hnodup hpages).sublist (List.filter_sublist.map _)

/-! ### A deployment that fails twice -/

/-- What every request for the runs of a deployment fails with, however often it is made. -/
def truncated : StoreError := .decode "truncated"

def failedAttempt : Attempt := (nested, .error (.state truncated))

def secondFailure : Event := .schedulingFailed nested.id 2 (SchedulingError.state truncated).message

/-- The round over the only deployment, which fails; these events make it known. -/
def failingRound (events : List Event) : Round where
  page := { deployments := [nested] }
  outcomes := [failedAttempt.2]
  asked := [⟨.setPhase .paging, ()⟩]
  listed := [⟨.listSchedulable none 100, Except.ok { deployments := [nested] }⟩]
  materialized := [⟨.findExisting nested.id [firstRun.key], Except.error truncated⟩]
  noted := events.map fun event => ⟨.emit event, ()⟩

def failingReport : PassReport := { pages := 1, deployments := 1, failed := [nested.id] }

def failingCall (events : List Event) : PassCall where
  now := .epoch
  heedsStop := false
  turns := [.ofRound (failingRound events)]
  course := (failingRound events).course
  result := .ok failingReport

theorem takes_truncated : (Materializer.materialize {} nested .epoch).Takes
    [⟨.findExisting nested.id [firstRun.key], Except.error truncated⟩]
    (.error (.state truncated)) := by
  have hcandidates : Materializer.candidates {} nested .epoch = [firstRun] := by
    rw [Materializer.candidates_eq, Materializer.candidateTimes_nested]
    rfl
  rw [Materializer.materialize, hcandidates]
  exact .ask (.done _)

theorem deals_failingRound {events : List Event} {failures failures' : FailureCounts}
    (h : (Scheduler.recordAll {} { pages := 1, deployments := 1 } failures [failedAttempt]).Takes
      (events.map fun event => ⟨.emit event, ()⟩) (failingReport, failures')) :
    (failingRound events).Deals {} .epoch false { failures } (failingReport, failures') where
  asked := rfl
  listed := .ask (.done _)
  materialized := by
    have hjobs : ∀ i : Fin 1, ([Materializer.materialize {} nested .epoch].get i).Takes
        (Script.courseOf i [((0 : Fin 1), (⟨.findExisting nested.id [firstRun.key],
          Except.error truncated⟩ : Exchange))]) (.error (.state truncated)) := by
      intro i
      match i with
      | 0 => exact takes_truncated
    exact @Takes.all _ 10 [Materializer.materialize {} nested .epoch] _
      (fun _ => .error (.state truncated)) hjobs
      fun _ _ _ _ => (Finset.card_le_univ _).trans (by decide)
  noted := h

theorem deals_first : (failingRound []).Deals {} .epoch false {}
    (failingReport, Table.insert {} nested.id 1) :=
  deals_failingRound (.done _)

theorem deals_second : (failingRound [secondFailure]).Deals {} .epoch false
    { failures := Table.insert {} nested.id 1 }
    (failingReport, (Table.insert {} nested.id 1).insert nested.id 2) :=
  deals_failingRound (.ask (.done _))

theorem fromCatalogs_second : FromCatalogs (failingCall [secondFailure]).course := by
  intro token size page hmem
  simp only [failingCall, Round.course, failingRound, List.map, List.cons_append, List.nil_append,
    List.mem_cons, List.not_mem_nil, or_false] at hmem
  rcases hmem with hmem | hmem | hmem | hmem | hmem
  all_goals cases hmem
  exact ⟨oneDeployment, reachable_oneDeployment, rfl⟩

/-- The second pass makes known that the deployment failed, with a count of two. -/
theorem failures_in_a_row_of_truncated :
    (∃ turns, Goes {} .epoch false {} turns (failingCall []).course
      (.ok failingReport, Table.insert {} nested.id 1)) ∧
    ∃ failures, Passes {} {} [failingCall [], failingCall [secondFailure]] failures ∧
      failures.count nested.id = 2 ∧
      notices (failingCall []).course = [] ∧
      notices (failingCall [secondFailure]).course = [secondFailure] ∧
      FromCatalogs (failingCall [secondFailure]).course ∧ failingReport.failed.Nodup := by
  have hpasses : Passes {} {} [failingCall [], failingCall [secondFailure]]
      ((Table.insert {} nested.id 1).insert nested.id 2) :=
    .cons (.last (Turn.deals_ofRound deals_first) rfl)
      (.cons (.last (Turn.deals_ofRound deals_second) rfl) (.nil _))
  obtain ⟨hgoes, hcounted⟩ := failures_in_a_row_of_passes {}
  obtain ⟨hcount, heach⟩ := hcounted _ _ hpasses
  obtain ⟨hfirst, _⟩ := heach [] (failingCall []) [failingCall [secondFailure]] rfl
  obtain ⟨hsecond, _, _, _, hreport⟩ :=
    heach [failingCall []] (failingCall [secondFailure]) [] rfl
  obtain ⟨_, _, _, hnodup⟩ := hreport failingReport rfl
  refine ⟨hgoes _ _ _ _ _ (Rounds.takes (.last deals_first rfl)), _, hpasses, ?_, ?_, ?_,
    fromCatalogs_second, hnodup fromCatalogs_second⟩
  · rw [(hcount nested.id).1]
    rfl
  · rw [hfirst]
    rfl
  · rw [hsecond]
    rfl

/-! ### A deployment that fails too often to be counted -/

theorem exists_takes_record_error (s : Scheduler) (report : PassReport) (failures : FailureCounts)
    (d : Deployment) (e : SchedulingError) : ∃ (events : List Event) (failures' : FailureCounts),
      (s.record report failures d (.error e)).Takes (events.map fun event => ⟨.emit event, ()⟩)
        ({ report with failed := report.failed ++ [d.id] }, failures') := by
  rw [record]
  split_ifs
  · exact ⟨[.schedulingFailed d.id (failures.count d.id + 1) e.message], _, .ask (.done _)⟩
  · exact ⟨[], _, .done _⟩

theorem exists_failingCall (failures : FailureCounts) : ∃ events failures',
    Goes {} .epoch false { failures } (failingCall events).turns (failingCall events).course
      (.ok failingReport, failures') := by
  obtain ⟨events, failures', hrecord⟩ := exists_takes_record_error {}
    { pages := 1, deployments := 1 } failures nested (.state truncated)
  have hrecordAll : (Scheduler.recordAll {} { pages := 1, deployments := 1 } failures
      [failedAttempt]).Takes (events.map fun event => ⟨.emit event, ()⟩)
        (failingReport, failures') := by
    rw [← List.append_nil (List.map _ events)]
    exact hrecord.bind (.done _)
  exact ⟨events, failures', .last (Turn.deals_ofRound (deals_failingRound hrecordAll)) rfl⟩

theorem exists_passes_failing (n : Nat) (failures : FailureCounts) :
    ∃ calls failures', Passes {} failures calls failures' ∧
      attemptsOf calls = List.replicate n failedAttempt := by
  induction n generalizing failures with
  | zero => exact ⟨[], failures, .nil failures, rfl⟩
  | succ n ih =>
    obtain ⟨events, mid, hgoes⟩ := exists_failingCall failures
    obtain ⟨calls, failures', hpasses, hattempts⟩ := ih mid
    refine ⟨failingCall events :: calls, failures', .cons hgoes hpasses, ?_⟩
    rw [attemptsOf, List.flatMap_cons, ← attemptsOf, hattempts]
    rfl

theorem failuresInARow_replicate (n : Nat) :
    failuresInARow nested.id (List.replicate n failedAttempt) = n := by
  have hfiltered : (List.replicate n failedAttempt).filter (fun a => a.1.id = nested.id) =
      List.replicate n failedAttempt :=
    List.filter_replicate_of_pos (by decide)
  have hlatest : (List.replicate n failedAttempt).takeWhile hasFailed =
      List.replicate n failedAttempt :=
    List.takeWhile_replicate.trans (if_pos rfl)
  rw [failuresInARow, hfiltered, List.reverse_replicate, hlatest, List.length_replicate]

/-- A deployment that failed in each of `2 ^ 32` passes is said not to have failed. -/
theorem not_count_eq_failuresInARow :
    ¬ ∀ s calls failures, Passes s {} calls failures → ∀ id,
      (failures.count id).toNat = failuresInARow id (attemptsOf calls) := by
  intro h
  obtain ⟨calls, failures, hpasses, hattempts⟩ := exists_passes_failing UInt32.size {}
  have hcount := hpasses.counts Counts.nil nested.id
  have hclaimed := h {} calls failures hpasses nested.id
  rw [List.nil_append] at hcount
  rw [hcount, toNat_keptCount_eq_iff, hattempts, failuresInARow_replicate] at hclaimed
  exact Nat.lt_irrefl _ hclaimed

end Scheduler

end RunScheduler
