import RunScheduler.Materialization
import RunScheduler.Proofs.Store.Answers

/-!
# Courses of materializations

Whatever becomes of a materialization, it asks the store for nothing but the keys that the
deployment has and for its candidates to be stored (`asks_materialize`). If no request fails it
succeeds, with every candidate found or handed in to be stored, and what it reports and makes known
adds up to what was stored (`of_materialize`).
-/

namespace RunScheduler

/-! ### Counts -/

/-- How many runs were stored by an exchange. -/
def Exchange.inserted : Exchange → Nat
  | ⟨.insertRuns _ _, .ok n⟩ => n
  | _ => 0

/-- How many runs an exchange makes known to be scheduled. -/
def Exchange.announced : Exchange → Nat
  | ⟨.emit (.runsScheduled _ n _ _), _⟩ => n
  | _ => 0

namespace Materializer

open Script

variable {m : Materializer} {d : Deployment} {now : Instant} {course : List Exchange}

/-! ### Candidates -/

/-- The instants that runs are wanted for as of an instant. -/
def candidateTimes (m : Materializer) (d : Deployment) (now : Instant) : List Instant :=
  match d.schedule with
  | none => []
  | some schedule => schedule.evaluate now (d.bounds.apply m.bounds)

theorem candidates_eq (m : Materializer) (d : Deployment) (now : Instant) :
    m.candidates d now = (m.candidateTimes d now).map fun t => .ofDeployment d t now := by
  rw [candidates, candidateTimes]
  cases d.schedule <;> rfl

/-! ### Requests -/

/-- What a materialization asks for. -/
inductive Wants (m : Materializer) (d : Deployment) (now : Instant) : Request → Prop
  | insert {chunk : List PlannedRun} (h : ∀ p ∈ chunk, p ∈ m.candidates d now) :
      Wants m d now (.insertRuns d.id chunk)
  | find (keys : List String) : Wants m d now (.findExisting d.id keys)
  | emit (event : Event) : Wants m d now (.emit event)
  | wait (milliseconds : Nat) : Wants m d now (.wait milliseconds)

theorem announce_eq {chunk : List PlannedRun} (hne : chunk ≠ []) (inserted : Nat) :
    announce d chunk inserted =
      if 0 < inserted then
        .ask (.emit (.runsScheduled d.id inserted (chunk.head hne).scheduledTime
          (chunk.getLast hne).scheduledTime)) fun _ => .done ()
      else .done () := by
  rw [announce, List.head?_eq_some_head hne, List.getLast?_eq_some_getLast hne]
  rfl

theorem asks_announce (chunk : List PlannedRun) (inserted : Nat) :
    Asks (m.Wants d now) (announce d chunk inserted) := by
  by_cases hne : chunk = []
  · rw [hne]
    exact .done ()
  · rw [announce_eq hne]
    split_ifs
    · exact .call (.emit _)
    · exact .done ()

theorem asks_insertChunks {report : Materialization} {chunks : List (List PlannedRun)}
    (h : ∀ chunk ∈ chunks, ∀ p ∈ chunk, p ∈ m.candidates d now) :
    Asks (m.Wants d now) (m.insertChunks d report chunks) := by
  induction chunks generalizing report with
  | nil => exact .done _
  | cons chunk chunks ih =>
    rw [insertChunks]
    refine .bind (.retry (.call (.insert (h chunk List.mem_cons_self))) .wait) fun outcome => ?_
    cases outcome with
    | error e => exact .done _
    | ok inserted =>
      refine .bind (asks_announce chunk inserted) fun _ => ?_
      exact ih fun chunk hchunk => h chunk (List.mem_cons_of_mem _ hchunk)

theorem asks_materialize : Asks (m.Wants d now) (m.materialize d now) := by
  rw [materialize]
  split_ifs
  · exact .done _
  · refine .bind (.retry (.call (.find _)) .wait) fun outcome => ?_
    cases outcome with
    | error e => exact .done _
    | ok existing =>
      refine asks_insertChunks fun chunk hchunk p hp => ?_
      have hfresh := List.mem_flatten_of_mem hchunk hp
      rw [flatten_chunksOf] at hfresh
      exact List.mem_of_mem_filter hfresh

/-! ### Courses without failures -/

theorem ne_nil_of_mem_chunksOf {α : Type} {size : Nat} {l chunk : List α}
    (h : chunk ∈ chunksOf size l) : chunk ≠ [] := by
  fun_induction chunksOf size l with
  | case1 => cases h
  | case2 a l ih =>
    rcases List.mem_cons.mp h with rfl | h
    · obtain ⟨n, hn⟩ : ∃ n, max size 1 = n + 1 := ⟨max size 1 - 1, by omega⟩
      rw [hn, List.take_succ_cons]
      exact List.cons_ne_nil _ _
    · exact ih h

theorem of_announce {chunk : List PlannedRun} {inserted : Nat} {u : Unit} (hne : chunk ≠ [])
    (h : (announce d chunk inserted).Takes course u) :
    (course.map Exchange.announced).sum = inserted ∧ (course.map Exchange.inserted).sum = 0 := by
  rw [announce_eq hne] at h
  split_ifs at h with hpos
  · cases h with
    | ask h =>
      rw [h.of_done.1]
      exact ⟨Nat.add_zero _, rfl⟩
  · rw [h.of_done.1]
    exact ⟨(Nat.eq_zero_of_not_pos hpos).symm, rfl⟩

theorem takes_once {α : Type} {policy : RetryPolicy} {script : Script (Except StoreError α)}
    {outcome : Except StoreError α} (h : (Script.retry policy script).Takes course outcome)
    (hok : ∀ x ∈ course, ¬ x.Failed)
    (hfails : ∀ tried e, script.Takes tried (.error e) → ∃ x ∈ tried, x.Failed) :
    ∃ a, outcome = .ok a ∧ script.Takes course (.ok a) := by
  obtain ⟨first, rest, reply, rfl, hfirst, hlast⟩ := Takes.of_retry h
  cases reply with
  | error e =>
    obtain ⟨x, hx, hfailed⟩ := hfails first e hfirst
    exact absurd hfailed (hok x (List.mem_append_left _ hx))
  | ok a =>
    obtain ⟨rfl, rfl⟩ := hlast a rfl
    rw [List.append_nil]
    exact ⟨a, rfl, hfirst⟩

theorem of_retry_insertRuns {policy : RetryPolicy} {chunk : List PlannedRun}
    {outcome : Except StoreError Nat}
    (h : (Script.retry policy (call (.insertRuns d.id chunk))).Takes course outcome)
    (hok : ∀ x ∈ course, ¬ x.Failed) :
    ∃ n, outcome = .ok n ∧ course = [⟨.insertRuns d.id chunk, Except.ok n⟩] := by
  obtain ⟨n, rfl, hcall⟩ := takes_once h hok fun tried e h => by
    rw [h.of_call]
    exact ⟨_, List.mem_singleton_self _, .insertRuns _ _ _⟩
  exact ⟨n, rfl, hcall.of_call⟩

theorem of_retry_findExisting {policy : RetryPolicy} {keys : List String}
    {outcome : Except StoreError (List String)}
    (h : (Script.retry policy (call (.findExisting d.id keys))).Takes course outcome)
    (hok : ∀ x ∈ course, ¬ x.Failed) :
    ∃ existing, outcome = .ok existing ∧
      course = [⟨.findExisting d.id keys, Except.ok existing⟩] := by
  obtain ⟨existing, rfl, hcall⟩ := takes_once h hok fun tried e h => by
    rw [h.of_call]
    exact ⟨_, List.mem_singleton_self _, .findExisting _ _ _⟩
  exact ⟨existing, rfl, hcall.of_call⟩

theorem of_insertChunks {report : Materialization} {chunks : List (List PlannedRun)}
    {result : Except SchedulingError Materialization} (hne : ∀ chunk ∈ chunks, chunk ≠ [])
    (h : (m.insertChunks d report chunks).Takes course result) (hok : ∀ x ∈ course, ¬ x.Failed) :
    ∃ final, result = .ok final ∧
      final.inserted = report.inserted + (course.map Exchange.inserted).sum ∧
      (course.map Exchange.announced).sum = (course.map Exchange.inserted).sum ∧
      ∀ chunk ∈ chunks, ∃ reply, ⟨.insertRuns d.id chunk, reply⟩ ∈ course := by
  induction chunks generalizing report course with
  | nil =>
    obtain ⟨rfl, rfl⟩ := h.of_done
    exact ⟨report, rfl, rfl, rfl, fun chunk hchunk => by cases hchunk⟩
  | cons chunk chunks ih =>
    rw [insertChunks] at h
    obtain ⟨stored, course, outcome, rfl, hstored, hafter⟩ := Takes.of_bind h
    obtain ⟨n, rfl, rfl⟩ := of_retry_insertRuns hstored fun x hx =>
      hok x (List.mem_append_left _ hx)
    obtain ⟨made, course, _, rfl, hmade, hrest⟩ := Takes.of_bind hafter
    obtain ⟨hannounced, hnone⟩ := of_announce (hne chunk List.mem_cons_self) hmade
    obtain ⟨final, hresult, hinserted, hsum, hchunks⟩ :=
      ih (fun chunk hchunk => hne chunk (List.mem_cons_of_mem _ hchunk)) hrest
        fun x hx => hok x (List.mem_append_right _ (List.mem_append_right _ hx))
    have hhead : Exchange.inserted ⟨.insertRuns d.id chunk, Except.ok n⟩ = n := rfl
    have hsilent : Exchange.announced ⟨.insertRuns d.id chunk, Except.ok n⟩ = 0 := rfl
    simp only [List.singleton_append, List.map_cons, List.map_append, List.sum_cons,
      List.sum_append, hhead, hsilent, hnone, hannounced, hsum, Nat.zero_add]
    refine ⟨final, hresult, ?_, trivial, fun other hother => ?_⟩
    · rw [hinserted]
      exact Nat.add_assoc _ _ _
    · rcases List.mem_cons.mp hother with rfl | hother
      · exact ⟨_, List.mem_cons_self⟩
      · obtain ⟨reply, hmem⟩ := hchunks other hother
        exact ⟨reply, List.mem_cons_of_mem _ (List.mem_append_right _ hmem)⟩

/-- **A materialization of which nothing fails** succeeds. What it reports and what it makes known
add up to what was stored, and each candidate was found to be stored or handed in to be stored. -/
theorem of_materialize {result : Except SchedulingError Materialization}
    (h : (m.materialize d now).Takes course result) (hok : ∀ x ∈ course, ¬ x.Failed) :
    ∃ report, result = .ok report ∧ report.inserted = (course.map Exchange.inserted).sum ∧
      (course.map Exchange.announced).sum = (course.map Exchange.inserted).sum ∧
      ∀ p ∈ m.candidates d now,
        (∃ keys existing, ⟨.findExisting d.id keys, Except.ok existing⟩ ∈ course ∧
          p.key ∈ existing) ∨
        ∃ chunk reply, ⟨.insertRuns d.id chunk, reply⟩ ∈ course ∧ p ∈ chunk := by
  rw [materialize] at h
  split_ifs at h with hempty
  · obtain ⟨rfl, rfl⟩ := h.of_done
    rw [List.isEmpty_iff] at hempty
    exact ⟨{}, rfl, rfl, rfl, fun p hp => by rw [hempty] at hp; cases hp⟩
  · obtain ⟨asked, course, outcome, rfl, hasked, hrest⟩ := Takes.of_bind h
    obtain ⟨existing, rfl, rfl⟩ := of_retry_findExisting hasked fun x hx =>
      hok x (List.mem_append_left _ hx)
    obtain ⟨report, hresult, hinserted, hsum, hchunks⟩ :=
      of_insertChunks (fun chunk => ne_nil_of_mem_chunksOf) hrest fun x hx =>
        hok x (List.mem_append_right _ hx)
    refine ⟨report, hresult, ?_, ?_, fun p hp => ?_⟩
    · rw [hinserted]
      simp [Exchange.inserted]
    · simp [hsum, Exchange.inserted, Exchange.announced]
    · by_cases hpresent : p.key ∈ existing
      · exact Or.inl ⟨_, existing, List.mem_cons_self, hpresent⟩
      · have hfresh : p ∈ (chunksOf m.insertBatchSize
            ((m.candidates d now).filter fun r => !existing.contains r.key)).flatten := by
          rw [flatten_chunksOf, List.mem_filter]
          exact ⟨hp, by simpa using hpresent⟩
        obtain ⟨chunk, hchunk, hmem⟩ := List.mem_flatten.mp hfresh
        obtain ⟨reply, hreply⟩ := hchunks chunk hchunk
        exact Or.inr ⟨chunk, reply, List.mem_append_right _ hreply, hmem⟩

/-! ### Calls side by side -/

/-- A materializer is to materialize a deployment as of an instant. -/
structure Call where
  materializer : Materializer
  deployment : Deployment
  now : Instant

namespace Call

def script (c : Call) : Script (Except SchedulingError Materialization) :=
  c.materializer.materialize c.deployment c.now

def candidates (c : Call) : List PlannedRun :=
  c.materializer.candidates c.deployment c.now

def times (c : Call) : List Instant :=
  c.materializer.candidateTimes c.deployment c.now

def Wants (c : Call) (request : Request) : Prop :=
  c.materializer.Wants c.deployment c.now request

end Call

variable {limit : Nat} {calls : List Call}
  {outcomes : List (Except SchedulingError Materialization)}

theorem exists_courseOf (h : (all limit (calls.map Call.script)).Takes course outcomes) :
    ∃ (n : Nat) (call : Fin n → Call) (mixed : List (Fin n × Exchange))
      (outcome : Fin n → Except SchedulingError Materialization),
      (∀ c, c ∈ calls ↔ ∃ i, call i = c) ∧ course = mixed.map (·.2) ∧
        outcomes = List.ofFn outcome ∧
        ∀ i, (call i).script.Takes (courseOf i mixed) (outcome i) := by
  obtain ⟨mixed, hcourse, outcome, houtcomes, hjobs⟩ := Takes.of_all h
  have hlength : (calls.map Call.script).length = calls.length := List.length_map _
  refine ⟨_, fun i => calls.get (i.cast hlength), mixed, outcome, fun c => ?_, hcourse, houtcomes,
    fun i => ?_⟩
  · rw [List.mem_iff_get]
    constructor
    · rintro ⟨i, hi⟩
      exact ⟨i.cast hlength.symm, hi⟩
    · rintro ⟨i, hi⟩
      exact ⟨i.cast hlength, hi⟩
  · have hscript : (calls.map Call.script).get i = (calls.get (i.cast hlength)).script := by simp
    rw [← hscript]
    exact hjobs i

theorem asks_all : Asks (fun request => ∃ c ∈ calls, c.Wants request)
    (all limit (calls.map Call.script)) := by
  intro course outcomes h x hx
  obtain ⟨n, call, mixed, outcome, hcalls, rfl, _, htakes⟩ := exists_courseOf h
  obtain ⟨⟨i, x⟩, hmem, rfl⟩ := List.mem_map.mp hx
  exact ⟨call i, (hcalls _).mpr ⟨i, rfl⟩,
    asks_materialize _ _ (htakes i) x (mem_courseOf.mpr hmem)⟩

theorem of_materialize_all (h : (all limit (calls.map Call.script)).Takes course outcomes)
    (hok : ∀ x ∈ course, ¬ x.Failed) :
    ∃ reports : List Materialization, outcomes = reports.map .ok ∧
      (reports.map (·.inserted)).sum = (course.map Exchange.inserted).sum ∧
      (course.map Exchange.announced).sum = (course.map Exchange.inserted).sum ∧
      ∀ c ∈ calls, ∀ p ∈ c.candidates,
        (∃ keys existing, ⟨.findExisting c.deployment.id keys, Except.ok existing⟩ ∈ course ∧
          p.key ∈ existing) ∨
        ∃ chunk reply, ⟨.insertRuns c.deployment.id chunk, reply⟩ ∈ course ∧ p ∈ chunk := by
  obtain ⟨n, call, mixed, outcome, hcalls, rfl, rfl, htakes⟩ := exists_courseOf h
  have hmem {i : Fin n} {x : Exchange} (hx : x ∈ courseOf i mixed) : x ∈ mixed.map (·.2) :=
    List.mem_map.mpr ⟨(i, x), mem_courseOf.mp hx, rfl⟩
  choose report hreport hinserted hannounced hcovered using fun i =>
    of_materialize (htakes i) fun x hx => hok x (hmem hx)
  refine ⟨List.ofFn report, ?_, ?_, ?_, fun c hc p hp => ?_⟩
  · rw [List.map_ofFn]
    exact congrArg List.ofFn (funext hreport)
  · rw [List.map_ofFn, List.sum_ofFn, sum_courseOf]
    exact Finset.sum_congr rfl fun i _ => hinserted i
  · rw [sum_courseOf, sum_courseOf]
    exact Finset.sum_congr rfl fun i _ => hannounced i
  · obtain ⟨i, rfl⟩ := (hcalls c).mp hc
    rcases hcovered i p hp with ⟨keys, existing, hx, hkey⟩ | ⟨chunk, reply, hx, hchunk⟩
    · exact Or.inl ⟨keys, existing, hmem hx, hkey⟩
    · exact Or.inr ⟨chunk, reply, hmem hx, hchunk⟩

end Materializer

end RunScheduler
