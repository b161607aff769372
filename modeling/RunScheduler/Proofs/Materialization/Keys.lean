import RunScheduler.Proofs.Materialization.Course
import RunScheduler.Proofs.Recurrence.Interval
import RunScheduler.Proofs.Store.Keys

/-!
# Keys in a store that is scheduled

Clients put deployments, ask for runs and move them, while any number of materializations store
the runs of any deployments as of any instants, in any order and also at the same time, and some of
them fail halfway (`Store.Scheduled`). All keys in such a store are those of the instants of their
runs, so that no deployment has two scheduled runs at one instant, and a candidate is passed over
only where its own deployment has a run at its instant (`keys_of_scheduled`).
-/

namespace RunScheduler

/-- One thing that happens to a store: a client's operation, or an exchange that one of several
materializations makes. -/
inductive Activity
  | operation (op : Operation)
  | exchange (call : Nat) (x : Exchange)

namespace Activity

/-- What a materialization exchanged. -/
def exchangesOf (call : Nat) (log : List Activity) : List Exchange :=
  log.filterMap fun
    | exchange other x => if other = call then some x else none
    | operation _ => none

theorem mem_exchangesOf {call : Nat} {x : Exchange} {log : List Activity}
    (h : exchange call x ∈ log) : x ∈ exchangesOf call log :=
  List.mem_filterMap.mpr ⟨_, h, if_pos rfl⟩

end Activity

namespace Materializer

variable {m : Materializer} {d : Deployment} {now : Instant}

theorem keyedFor_of_mem_candidates {p : PlannedRun} (h : p ∈ m.candidates d now) :
    p.KeyedFor d.id := by
  rw [candidates_eq] at h
  obtain ⟨t, _, rfl⟩ := List.mem_map.mp h
  rfl

theorem Wants.keyedFor {request : Request} (h : m.Wants d now request) {deployment : String}
    {runs : List PlannedRun} (hrequest : request = .insertRuns deployment runs) :
    deployment = d.id ∧ ∀ p ∈ runs, p ∈ m.candidates d now ∧ p.KeyedFor deployment := by
  subst hrequest
  cases h with
  | insert h => exact ⟨rfl, fun p hp => ⟨h p hp, keyedFor_of_mem_candidates (h p hp)⟩⟩

end Materializer

namespace Store

/-- Activities lead from one store to another. An operation of a client is any but to store
planned runs, and an exchange with a materialization may fail. -/
inductive Acts : Store → List Activity → Store → Prop
  | nil (s : Store) : Acts s [] s
  | operation {s s' : Store} {op : Operation} {log : List Activity} (hfresh : op.Fresh s)
      (hclient : ∀ deployment given, op ≠ .insertRuns deployment given)
      (h : Acts (s.perform op).1 log s') : Acts s (.operation op :: log) s'
  | exchange {s s₁ s' : Store} {call : Nat} {x : Exchange} {log : List Activity}
      (hanswer : Answers s x s₁) (h : Acts s₁ log s') : Acts s (.exchange call x :: log) s'
  | failure {s s' : Store} {call : Nat} {x : Exchange} {log : List Activity} (hfailed : x.Failed)
      (h : Acts s log s') : Acts s (.exchange call x :: log) s'

/-- Clients and materializations can lead to the store from the empty one. Each materialization
is one by some materializer, of some deployment, as of some instant, and has come to its end or
not. -/
def Scheduled (s : Store) : Prop :=
  ∃ log, Acts empty log s ∧
    ∀ call, ∃ m d now, (Materializer.materialize m d now).Begins (Activity.exchangesOf call log)

variable {plans : String → PlannedRun → Prop} {s s' : Store}

theorem Acts.changes {log : List Activity} (hs : s.WellFormed) (h : Acts s log s')
    (hplans : ∀ call x, .exchange call x ∈ log → ∀ deployment runs,
      x.request = .insertRuns deployment runs → ∀ p ∈ runs, plans deployment p) :
    Changes plans s s' := by
  induction h with
  | nil => exact .refl
  | @operation s _ op log hfresh hclient _ ih =>
    have hchanges : Changes plans s (s.perform op).1 :=
      changes_perform hs hfresh fun deployment given heq => absurd heq (hclient deployment given)
    exact hchanges.trans (ih (hchanges.wellFormed hs)
      fun call x hx => hplans call x (List.mem_cons_of_mem _ hx))
  | @exchange s s₁ _ call x log hanswer _ ih =>
    have hchanges : Changes plans s s₁ := hanswer.changes hs (hplans call x List.mem_cons_self)
    exact hchanges.trans (ih (hchanges.wellFormed hs)
      fun call x hx => hplans call x (List.mem_cons_of_mem _ hx))
  | failure _ _ ih => exact ih hs fun call x hx => hplans call x (List.mem_cons_of_mem _ hx)

theorem Scheduled.changes (h : Scheduled s) : Changes (fun d p => p.KeyedFor d) empty s := by
  obtain ⟨log, hacts, hcalls⟩ := h
  refine hacts.changes .empty fun call x hx deployment runs hrequest p hp => ?_
  obtain ⟨m, d, now, hbegins⟩ := hcalls call
  have hwants : m.Wants d now x.request :=
    Materializer.asks_materialize.of_begins hbegins x (Activity.mem_exchangesOf hx)
  exact ((hwants.keyedFor hrequest).2 p hp).2

theorem Scheduled.wellFormed (h : Scheduled s) : s.WellFormed :=
  h.changes.wellFormed .empty

theorem Scheduled.keysExact (h : Scheduled s) : KeysExact s :=
  h.changes.invariant (fun _ hexact hchange => hchange.keysExact hexact) .empty .empty

/-- **A key stands for one run.** Where clients and materializations share a store, two runs that
have keys are the same if they are of one deployment and scheduled for one instant. Of the keys of
a deployment's runs at some instants the store finds those whose runs are stored, and no candidate
is taken to be stored because of another deployment's run, whatever the ids of the deployments. -/
theorem keys_of_scheduled (h : Scheduled s) :
    (∀ id id' r r', s.getRun id = some r → s.getRun id' = some r' → r.key.isSome = true →
      r'.key.isSome = true → r.deployment = r'.deployment → r.scheduledTime = r'.scheduledTime →
      id = id') ∧
    ∀ (d : Deployment) (times : List Instant) (now : Instant),
      let key (t : Instant) := (PlannedRun.ofDeployment d t now).key
      s.findExisting d.id (times.map key) = (times.filter fun t => t ∈ s.keyedTimes d.id).map key ∧
      ∀ t ∈ times, key t ∈ s.findExisting d.id (times.map key) ↔
        ∃ id r, s.getRun id = some r ∧ r.deployment = some d.id ∧ r.scheduledTime = t ∧
          r.key.isSome = true := by
  have hs := h.wellFormed
  refine ⟨fun id id' r r' hget hget' hkey hkey' hdeployment htime =>
    h.keysExact.eq_of_isSome hget hget' hkey hkey' hdeployment htime, fun d times now => ?_⟩
  intro key
  have hkey : key = runKey d.id := rfl
  have hfound := h.keysExact.findExisting_eq hs d.id times
  rw [hkey]
  refine ⟨hfound, fun t ht => ?_⟩
  rw [hfound, List.mem_map_of_injective (runKey_injective d.id), List.mem_filter,
    decide_eq_true_eq, mem_keyedTimes_iff hs]
  exact and_iff_right ht

end Store

/-! ### An id with a key inside -/

def everyHour : Interval := ⟨.epoch, 3600, by decide⟩

def hourly : Schedule := ⟨{ recurrence := .interval 3600 none }, .interval everyHour, rfl⟩

/-- A deployment whose id is made of another's id and the beginning of its keys. One run is
planned ahead. -/
def nested : Deployment where
  id := "etl|scheduled etl"
  name := "nested"
  schedule := some hourly
  bounds := { minRuns := some 1 }
  createdAt := .epoch
  updatedAt := .epoch

def firstHour : Instant := (Instant.epoch.addSeconds? 3600).getD .epoch

def firstRun : PlannedRun := .ofDeployment nested firstHour .epoch

namespace Materializer

theorem candidateTimes_nested : candidateTimes {} nested .epoch = [firstHour] := by
  have hfirst : everyHour.occurrences .epoch none =
      .cons firstHour fun _ => everyHour.fromIndex 2 := Interval.fromIndex_of_nth? rfl
  have hoccurrences : ∃ rest, hourly.occurrences .epoch = .cons firstHour rest := by
    rw [Schedule.occurrences, hourly, Schedule.Timing.occurrences, Schedule.start, hfirst]
    exact ⟨_, rfl⟩
  obtain ⟨rest, hrest⟩ := hoccurrences
  rw [candidateTimes, nested]
  dsimp only
  rw [Schedule.evaluate, hrest]
  rfl

theorem takes_nested (n : Nat) :
    (materialize {} nested .epoch).Takes
      (⟨.findExisting nested.id [firstRun.key], Except.ok []⟩ ::
        ⟨.insertRuns nested.id [firstRun], Except.ok n⟩ ::
        if 0 < n then [⟨.emit (.runsScheduled nested.id n firstHour firstHour), ()⟩] else [])
      (.ok { candidates := 1, inserted := n, chunks := 1 }) := by
  have hcandidates : candidates {} nested .epoch = [firstRun] := by
    rw [candidates_eq, candidateTimes_nested]
    rfl
  have hchunks : chunksOf 500 [firstRun] = [[firstRun]] := by
    simp [chunksOf]
  rw [materialize, hcandidates]
  refine .ask ?_
  change (insertChunks {} nested { candidates := 1 } (chunksOf 500 [firstRun])).Takes _ _
  rw [hchunks]
  refine .ask ?_
  change ((announce nested [firstRun] n).bind fun _ =>
    .done (Except.ok (⟨1, 0, 0 + n, 1⟩ : Materialization))).Takes _ _
  rw [announce_eq (List.cons_ne_nil _ _), Nat.zero_add]
  split_ifs
  · exact .ask (.done _)
  · exact .done _

end Materializer

namespace Store

/-- A store with the run that was planned. -/
def oneStored : Store := (empty.insertRuns nested.id [(⟨1⟩, firstRun)]).1

theorem answers_firstRun :
    Answers empty ⟨.insertRuns nested.id [firstRun], Except.ok 1⟩ oneStored := by
  have hfresh : (Operation.insertRuns nested.id [(⟨1⟩, firstRun)]).Fresh empty :=
    ⟨List.nodup_singleton _, fun _ _ => rfl⟩
  exact .insertRuns hfresh

theorem scheduled_oneStored : Scheduled oneStored := by
  let find : Exchange := ⟨.findExisting nested.id [firstRun.key], Except.ok []⟩
  let insert : Exchange := ⟨.insertRuns nested.id [firstRun], Except.ok 1⟩
  refine ⟨[.exchange 0 find, .exchange 0 insert],
    .exchange (.findExisting _ _) (.exchange answers_firstRun (.nil _)), fun call => ?_⟩
  refine ⟨{}, nested, .epoch, ?_⟩
  by_cases hcall : call = 0
  · subst hcall
    exact ⟨_, _, Materializer.takes_nested 1⟩
  · have hnone : Activity.exchangesOf call [.exchange 0 find, .exchange 0 insert] = [] := by
      simp [Activity.exchangesOf, Ne.symm hcall]
    rw [hnone]
    exact ⟨_, _, Materializer.takes_nested 1⟩

/-- The run of one deployment is not found for another, whose entries begin like its own. -/
theorem keys_of_nested_ids :
    Scheduled oneStored ∧
    oneStored.findExisting nested.id [runKey nested.id firstHour] =
      [runKey nested.id firstHour] ∧
    oneStored.findExisting "etl" [runKey "etl" firstHour] = [] := by
  have hfound := (keys_of_scheduled scheduled_oneStored).2
  exact ⟨scheduled_oneStored, (hfound nested [firstHour] .epoch).1,
    (hfound { nested with id := "etl" } [firstHour] .epoch).1⟩

end Store

end RunScheduler
