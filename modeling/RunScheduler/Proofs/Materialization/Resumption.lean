import RunScheduler.Proofs.Lifecycle.Alone
import RunScheduler.Proofs.Materialization.Keys
import RunScheduler.Proofs.Schedule.Coverage
import RunScheduler.Proofs.Schedule.Evaluation
import RunScheduler.Proofs.Store.Planning

/-!
# Materializations that fail halfway

A materialization that is alone with a store stores a beginning of the runs that are missing, in
whole chunks, and its report, its error and what it makes known say how many these were
(`Advances`). This holds for any failures to store a chunk, tried again or not
(`achieves_materialize`), since such a failure leaves the store as it is and ends the work only
after the last try.

What is missing from then on is the rest (`missing_of_adds`). So the next materialization that does
not fail stores exactly that, and the one after it nothing (`materialize_resumes`).
-/

namespace RunScheduler

/-- The store could not store planned runs. -/
inductive Exchange.InsertFailed : Exchange → Prop
  | intro (deployment : String) (runs : List PlannedRun) (e : StoreError) :
      InsertFailed ⟨.insertRuns deployment runs, Except.error e⟩

namespace Materializer

open Script Store

variable {m : Materializer} {d : Deployment} {now : Instant} {s s' : Store}
  {course : List Exchange} {fails : Exchange → Prop}

/-! ### What is missing -/

/-- The candidates whose keys the deployment does not have, oldest first. -/
def missing (m : Materializer) (d : Deployment) (now : Instant) (s : Store) : List PlannedRun :=
  (m.candidates d now).filter fun p => !s.runKeys.contains (keyEntry d.id p.key)

theorem pairwise_candidateTimes : (m.candidateTimes d now).Pairwise (· < ·) := by
  rw [candidateTimes]
  cases d.schedule with
  | none => exact List.Pairwise.nil
  | some schedule =>
    have hasc := schedule.ascending_occurrences now
    have hnone : ∀ last, ([] : List Instant).head? = some last →
        ∀ t ∈ (schedule.occurrences now).toList, last < t := by
      rintro last ⟨⟩
    unfold Schedule.evaluate
    dsimp only
    split_ifs
    · exact List.Pairwise.nil
    · exact hasc.sublist (Schedule.takeTimes_isPrefix hasc hnone).sublist

theorem pairwise_candidates :
    (m.candidates d now).Pairwise fun p q => p.scheduledTime < q.scheduledTime := by
  rw [candidates_eq, List.pairwise_map]
  exact pairwise_candidateTimes

theorem pairwise_missing :
    (m.missing d now s).Pairwise fun p q => p.scheduledTime < q.scheduledTime :=
  pairwise_candidates.filter _

theorem nodup_keys_missing : ((m.missing d now s).map fun p => keyEntry d.id p.key).Nodup := by
  have hkeys : ((m.candidates d now).map fun p => keyEntry d.id p.key).Nodup := by
    rw [candidates_eq, List.map_map]
    refine List.Nodup.map (fun t u h => ?_) (pairwise_candidateTimes.imp fun h => ?_)
    · exact (keyEntry_runKey_injective h).2
    · rintro rfl
      exact Instant.lt_irrefl _ h
  exact (List.filter_sublist.map _).nodup hkeys

theorem contains_of_mem_missing {p : PlannedRun} (h : p ∈ m.missing d now s) :
    s.runKeys.contains (keyEntry d.id p.key) = false := by
  have hnot := (List.mem_filter.mp h).2
  rwa [Bool.not_eq_true'] at hnot

/-- Once a beginning of what is missing was added, the rest is missing. -/
theorem missing_of_adds {front rest : List PlannedRun} {given : List (RunId × PlannedRun)}
    (hmissing : m.missing d now s = front ++ rest) (hgiven : given.map (·.2) = front)
    (h : Adds d.id s given s') : m.missing d now s' = rest := by
  have hkeys : ((m.missing d now s).map fun p => keyEntry d.id p.key).Nodup := nodup_keys_missing
  rw [hmissing, List.map_append, List.nodup_append] at hkeys
  have hadded {p : PlannedRun} : s'.runKeys.contains (keyEntry d.id p.key) = true ↔
      s.runKeys.contains (keyEntry d.id p.key) = true ∨
        keyEntry d.id p.key ∈ front.map fun q => keyEntry d.id q.key := by
    rw [h.rows.contains_iff, ← hgiven, List.map_map, List.mem_map]
    rfl
  have hstill : m.missing d now s' =
      (m.missing d now s).filter fun p => !s'.runKeys.contains (keyEntry d.id p.key) := by
    rw [missing, missing, List.filter_filter]
    refine List.filter_congr fun p _ => ?_
    cases hcontains : s.runKeys.contains (keyEntry d.id p.key) with
    | false => rw [Bool.not_false, Bool.and_true]
    | true => rw [hadded.mpr (Or.inl hcontains), Bool.not_true, Bool.and_false]
  have hfront : front.filter (fun p => !s'.runKeys.contains (keyEntry d.id p.key)) = [] := by
    refine List.filter_eq_nil_iff.mpr fun p hp => ?_
    rw [hadded.mpr (Or.inr (List.mem_map_of_mem hp))]
    exact Bool.false_ne_true
  have hrest : rest.filter (fun p => !s'.runKeys.contains (keyEntry d.id p.key)) = rest := by
    refine List.filter_eq_self.mpr fun p hp => ?_
    have hmem : p ∈ m.missing d now s := hmissing ▸ List.mem_append_right front hp
    rw [Bool.not_eq_true', Bool.eq_false_iff, Ne, hadded, not_or]
    refine ⟨Bool.eq_false_iff.mp (contains_of_mem_missing hmem), fun hkey => ?_⟩
    exact hkeys.2.2 _ hkey _ (List.mem_map_of_mem hp) rfl
  rw [hstill, hmissing, List.filter_append, hfront, hrest, List.nil_append]

/-! ### Chunks -/

theorem length_chunksOf {α : Type} (size : Nat) (l : List α) :
    (chunksOf size l).length = (l.length + (max size 1 - 1)) / max size 1 := by
  fun_induction chunksOf size l with
  | case1 => rw [List.length_nil, List.length_nil, Nat.zero_add, Nat.div_eq_of_lt (by omega)]
  | case2 a l ih =>
    rw [List.length_cons, ih, List.length_drop, List.length_cons]
    generalize hsize : max size 1 = b
    have hpos : 0 < b := by omega
    have hone : l.length + 1 + (b - 1) = l.length + b := by omega
    rw [hone, Nat.add_div_right _ hpos]
    by_cases hlast : l.length < b - 1
    · have hnone : l.length - (b - 1) + (b - 1) = b - 1 := by omega
      rw [hnone, Nat.div_eq_of_lt (by omega), Nat.div_eq_of_lt (by omega)]
    · rw [Nat.sub_add_cancel (Nat.not_lt.mp hlast)]

theorem dvd_length_flatten {α : Type} {size : Nat} {l chunk : List α} {done rest : List (List α)}
    (h : chunksOf size l = done ++ chunk :: rest) : max size 1 ∣ done.flatten.length := by
  fun_induction chunksOf size l generalizing done with
  | case1 => exact absurd h.symm (List.append_ne_nil_of_right_ne_nil _ (List.cons_ne_nil _ _))
  | case2 a l ih =>
    cases done with
    | nil => exact Nat.dvd_zero _
    | cons first done =>
      obtain ⟨rfl, hlater⟩ := List.cons.inj h
      have hmore : l.drop (max size 1 - 1) ≠ [] := by
        intro hnil
        rw [hnil, chunksOf] at hlater
        exact absurd hlater.symm (List.append_ne_nil_of_right_ne_nil _ (List.cons_ne_nil _ _))
      have hfull : ((a :: l).take (max size 1)).length = max size 1 := by
        rw [Ne, List.drop_eq_nil_iff] at hmore
        rw [List.length_take, List.length_cons]
        omega
      rw [List.flatten_cons, List.length_append, hfull]
      exact Nat.dvd_add (Nat.dvd_refl _) (ih hlater)

/-! ### Exchanges that make nothing known -/

theorem announced_eq_zero {x : Exchange} (h : ∀ event, x.request ≠ .emit event) :
    x.announced = 0 := by
  obtain ⟨request, reply⟩ := x
  cases request with
  | emit event => exact absurd rfl (h event)
  | _ => rfl

theorem sum_announced_retry {α : Type} {policy : RetryPolicy}
    {script : Script (Except StoreError α)} {outcome : Except StoreError α}
    (hasks : Asks (fun request => ∀ event, request ≠ .emit event) script)
    (h : (Script.retry policy script).Takes course outcome) :
    (course.map Exchange.announced).sum = 0 := by
  have hretry : Asks (fun request => ∀ event, request ≠ .emit event)
      (Script.retry policy script) := .retry hasks fun _ _ heq => nomatch heq
  refine List.sum_eq_zero fun n hn => ?_
  obtain ⟨x, hx, rfl⟩ := List.mem_map.mp hn
  exact announced_eq_zero (hretry course outcome h x hx)

/-! ### Parts of a materialization -/

theorem achieves_insertRuns {policy : RetryPolicy} {chunk : List PlannedRun}
    (hnew : ∀ p ∈ chunk, s.runKeys.contains (keyEntry d.id p.key) = false)
    (hkeys : (chunk.map fun p => keyEntry d.id p.key).Nodup) (hroom : s.HasRoomFor chunk.length) :
    Achieves fails s (Script.retry policy (call (.insertRuns d.id chunk)))
      fun course s' outcome => (course.map Exchange.announced).sum = 0 ∧
        ((∃ given, given.map (·.2) = chunk ∧ Adds d.id s given s' ∧ outcome = .ok chunk.length) ∨
          ∃ e, outcome = .error e ∧ s' = s ∧ fails ⟨.insertRuns d.id chunk, Except.error e⟩) := by
  have honce : Achieves fails s (call (.insertRuns d.id chunk)) fun _ s' outcome =>
      ((∃ given, given.map (·.2) = chunk ∧ Adds d.id s given s' ∧ outcome = .ok chunk.length) ∨
        ∃ e, outcome = .error e ∧ s' = s ∧ fails ⟨.insertRuns d.id chunk, Except.error e⟩) ∧
      ∀ e, outcome = .error e → s' = s := by
    refine .ask ?_ fun reply s' hreply => .done ?_
    · obtain ⟨ids, hlength, hnodup, hunused⟩ := exists_unused hroom
      have hids : (ids.zip chunk).map (·.1) = ids := List.map_fst_zip hlength.le
      have hruns : (ids.zip chunk).map (·.2) = chunk := List.map_snd_zip hlength.ge
      have hfresh : (Operation.insertRuns d.id (ids.zip chunk)).Fresh s := by
        rw [Operation.Fresh, hids]
        exact ⟨hnodup, hunused⟩
      have hanswer := Answers.insertRuns hfresh
      rw [hruns] at hanswer
      exact ⟨_, _, .answered hanswer⟩
    · cases hreply with
      | answered h =>
        cases h with
        | @insertRuns _ given hfresh =>
          rw [List.map_map] at hkeys
          obtain ⟨hadds, hcount⟩ := adds_insertRuns hfresh
            (fun e he => hnew e.2 (List.mem_map_of_mem he)) hkeys
          rw [hcount]
          refine ⟨Or.inl ⟨given, rfl, hadds, ?_⟩, fun e he => by cases he⟩
          rw [List.length_map]
        | elsewhere h => cases h
      | failed h hmay =>
        cases h with
        | insertRuns _ _ e => exact ⟨Or.inr ⟨e, rfl, rfl, hmay⟩, fun _ _ => rfl⟩
  refine (Achieves.retry _ honce).takes.mono fun course s' outcome ⟨htakes, hclaim⟩ => ⟨?_, hclaim⟩
  exact sum_announced_retry (.call fun _ heq => nomatch heq) htakes

theorem achieves_findExisting {policy : RetryPolicy} {keys : List String}
    (hfind : ∀ deployment keys e, ¬ fails ⟨.findExisting deployment keys, Except.error e⟩) :
    Achieves fails s (Script.retry policy (call (.findExisting d.id keys)))
      fun course s' outcome => (course.map Exchange.announced).sum = 0 ∧
        s' = s ∧ outcome = .ok (s.findExisting d.id keys) := by
  have honce : Achieves fails s (call (.findExisting d.id keys)) fun _ s' outcome =>
      (s' = s ∧ outcome = .ok (s.findExisting d.id keys)) ∧
      ∀ e, outcome = .error e → s' = s := by
    refine .ask ⟨_, _, .answered (.findExisting d.id keys)⟩ fun reply s' hreply => .done ?_
    cases hreply with
    | answered h =>
      cases h with
      | findExisting => exact ⟨⟨rfl, rfl⟩, fun _ _ => rfl⟩
      | elsewhere h => cases h
    | failed h hmay =>
      cases h with
      | findExisting _ _ e => exact absurd hmay (hfind _ _ e)
  refine (Achieves.retry (fun s' outcome => s' = s ∧ outcome = .ok (s.findExisting d.id keys))
    honce).takes.mono fun course s' outcome ⟨htakes, hclaim⟩ => ⟨?_, hclaim⟩
  exact sum_announced_retry (.call fun _ heq => nomatch heq) htakes

theorem achieves_announce {chunk : List PlannedRun} (hne : chunk ≠ []) (inserted : Nat) :
    Achieves fails s (announce d chunk inserted) fun course s' _ =>
      (course.map Exchange.announced).sum = inserted ∧ s' = s := by
  have hsame : Achieves fails s (announce d chunk inserted) fun _ s' _ => s' = s := by
    rw [announce_eq hne]
    split_ifs
    · exact Achieves.call_elsewhere rfl ()
    · exact .done rfl
  exact hsame.takes.mono fun course s' _ ⟨htakes, hs'⟩ => ⟨(of_announce hne htakes).1, hs'⟩

/-- How it ends when some chunks were stored: there was none after them, or the one after them could
not be stored. -/
inductive Ends (fails : Exchange → Prop) (d : Deployment) (report : Materialization)
    (done : List (List PlannedRun)) :
    List (List PlannedRun) → Except SchedulingError Materialization → Prop
  | whole : Ends fails d report done []
      (.ok { report with
        chunks := report.chunks + done.length
        inserted := report.inserted + done.flatten.length })
  | cut {chunk : List PlannedRun} {rest : List (List PlannedRun)} {e : StoreError}
      (hmay : fails ⟨.insertRuns d.id chunk, Except.error e⟩) :
      Ends fails d report done (chunk :: rest)
        (.error (.partialBatch d.id (report.inserted + done.flatten.length) e))

theorem Ends.cons {report : Materialization} {chunk : List PlannedRun}
    {done rest : List (List PlannedRun)} {result : Except SchedulingError Materialization}
    (h : Ends fails d { report with
      chunks := report.chunks + 1, inserted := report.inserted + chunk.length } done rest result) :
    Ends fails d report (chunk :: done) rest result := by
  have hinserted : report.inserted + chunk.length + done.flatten.length =
      report.inserted + (chunk :: done).flatten.length := by
    rw [List.flatten_cons, List.length_append, Nat.add_assoc]
  have hchunks : report.chunks + 1 + done.length = report.chunks + (chunk :: done).length := by
    rw [List.length_cons]
    omega
  cases h with
  | whole =>
    dsimp only
    rw [hinserted, hchunks]
    exact .whole
  | cut hmay =>
    dsimp only
    rw [hinserted]
    exact .cut hmay

theorem achieves_insertChunks {report : Materialization} {chunks : List (List PlannedRun)}
    (hne : ∀ chunk ∈ chunks, chunk ≠ [])
    (hnew : ∀ p ∈ chunks.flatten, s.runKeys.contains (keyEntry d.id p.key) = false)
    (hkeys : (chunks.flatten.map fun p => keyEntry d.id p.key).Nodup)
    (hroom : s.HasRoomFor chunks.flatten.length) :
    Achieves fails s (m.insertChunks d report chunks) fun course s' result =>
      ∃ done rest given, chunks = done ++ rest ∧ given.map (·.2) = done.flatten ∧
        Adds d.id s given s' ∧ (course.map Exchange.announced).sum = done.flatten.length ∧
        Ends fails d report done rest result := by
  induction chunks generalizing s report with
  | nil => exact .done ⟨[], [], [], rfl, rfl, .nil s, rfl, .whole⟩
  | cons chunk chunks ih =>
    rw [List.forall_mem_cons] at hne
    rw [List.flatten_cons, List.forall_mem_append] at hnew
    rw [List.flatten_cons, List.map_append, List.nodup_append] at hkeys
    rw [List.flatten_cons, List.length_append] at hroom
    have hfirst : s.HasRoomFor chunk.length := by
      unfold HasRoomFor at hroom ⊢
      omega
    rw [insertChunks]
    refine Achieves.bind (achieves_insertRuns hnew.1 hkeys.1 hfirst) ?_
    -- A chunk that is stored has none of the keys of later ones, which are new still.
    rintro tried s₁ _ ⟨hsilent, ⟨given, hgiven, hadds, rfl⟩ | ⟨e, rfl, rfl, hmay⟩⟩
    · have hlater : ∀ p ∈ chunks.flatten,
          s₁.runKeys.contains (keyEntry d.id p.key) = false := fun p hp => by
        rw [Bool.eq_false_iff, Ne, hadds.rows.contains_iff, not_or]
        refine ⟨Bool.eq_false_iff.mp (hnew.2 p hp), ?_⟩
        rintro ⟨e, he, heq⟩
        have hmem : e.2 ∈ chunk := hgiven ▸ List.mem_map_of_mem he
        exact hkeys.2.2 _ (List.mem_map_of_mem hmem) _ (List.mem_map_of_mem hp) heq
      have hleft : s₁.HasRoomFor chunks.flatten.length := by
        have hlength := hadds.rows.length_eq
        have hcount : given.length = chunk.length := by rw [← hgiven, List.length_map]
        unfold HasRoomFor at hroom ⊢
        omega
      refine Achieves.bind (achieves_announce hne.1 chunk.length) ?_
      rintro made _ _ ⟨hmade, rfl⟩
      refine (ih hne.2 hlater hkeys.2.1 hleft).mono ?_
      rintro later s' result ⟨done, rest, given', rfl, hgiven', hadds', hsum, hends⟩
      refine ⟨chunk :: done, rest, given ++ given', rfl, ?_, hadds.append hadds', ?_, hends.cons⟩
      · rw [List.map_append, hgiven, hgiven', List.flatten_cons]
      · simp only [List.map_append, List.sum_append, hsilent, hmade, hsum, List.flatten_cons,
          List.length_append, Nat.zero_add]
    · refine .done ⟨[], chunk :: chunks, [], rfl, rfl, .nil _, ?_, .cut hmay⟩
      rw [List.append_nil, hsilent]
      rfl

/-! ### Whole materializations -/

theorem filter_findExisting (m : Materializer) (d : Deployment) (now : Instant) (s : Store) :
    (m.candidates d now).filter (fun r =>
        !(s.findExisting d.id ((m.candidates d now).map (·.key))).contains r.key) =
      m.missing d now s := by
  refine List.filter_congr fun p hp => congrArg (! ·) ?_
  rw [Bool.eq_iff_iff, List.contains_iff_mem, findExisting, List.mem_filter]
  exact and_iff_right (List.mem_map_of_mem hp)

theorem achieves_chunks
    (hfind : ∀ deployment keys e, ¬ fails ⟨.findExisting deployment keys, Except.error e⟩)
    (hroom : s.HasRoomFor (m.missing d now s).length) :
    Achieves fails s (m.materialize d now) fun course s' result =>
      ∃ done rest given, chunksOf m.insertBatchSize (m.missing d now s) = done ++ rest ∧
        given.map (·.2) = done.flatten ∧ Adds d.id s given s' ∧
        (course.map Exchange.announced).sum = done.flatten.length ∧
        Ends fails d {
          candidates := (m.candidates d now).length
          alreadyPresent := (m.candidates d now).length - (m.missing d now s).length }
          done rest result := by
  rw [materialize]
  split_ifs with hempty
  · have hnone : m.candidates d now = [] := List.isEmpty_iff.mp hempty
    rw [missing, hnone]
    refine .done ⟨[], [], [], ?_, rfl, .nil s, rfl, .whole⟩
    rw [List.filter_nil, chunksOf]
    rfl
  · refine Achieves.bind (achieves_findExisting hfind) ?_
    rintro asked s _ ⟨hsilent, rfl, rfl⟩
    dsimp only
    rw [filter_findExisting]
    have hflatten := flatten_chunksOf m.insertBatchSize (m.missing d now s)
    refine (achieves_insertChunks (fun chunk => ne_nil_of_mem_chunksOf) ?_ ?_ ?_).mono ?_
    · rw [hflatten]
      exact fun p => contains_of_mem_missing
    · rw [hflatten]
      exact nodup_keys_missing
    · rw [hflatten]
      exact hroom
    · rintro course s' result ⟨done, rest, given, hchunks, hgiven, hadds, hsum, hends⟩
      refine ⟨done, rest, given, hchunks, hgiven, hadds, ?_, hends⟩
      rw [List.map_append, List.sum_append, hsilent, hsum, Nat.zero_add]

/-- A call has stored those in front of the missing runs, one run each and nothing else, and not the
rest of them. It says how many it has stored, in its result and in what it makes known. If it is
not done, a chunk could not be stored, and those before it were full. -/
structure Advances (fails : Exchange → Prop) (m : Materializer) (d : Deployment) (now : Instant)
    (s : Store) (front rest : List PlannedRun) (course : List Exchange) (s' : Store)
    (result : Except SchedulingError Materialization) : Prop where
  missing_eq : m.missing d now s = front ++ rest
  rows : ∃ given, given.map (·.2) = front ∧ AddsRows d.id s given s'
  missing_after : m.missing d now s' = rest
  unchanged : front = [] → s' = s
  whole : rest = [] → result = .ok {
    candidates := (m.candidates d now).length
    alreadyPresent := (m.candidates d now).length - (m.missing d now s).length
    inserted := front.length
    chunks := (front.length + (max m.insertBatchSize 1 - 1)) / max m.insertBatchSize 1 }
  cut : rest ≠ [] → max m.insertBatchSize 1 ∣ front.length ∧
    ∃ chunk e, fails ⟨.insertRuns d.id chunk, Except.error e⟩ ∧
      result = .error (.partialBatch d.id front.length e)
  announced : (course.map Exchange.announced).sum = front.length

theorem achieves_materialize
    (hfind : ∀ deployment keys e, ¬ fails ⟨.findExisting deployment keys, Except.error e⟩)
    (hroom : s.HasRoomFor (m.missing d now s).length) :
    Achieves fails s (m.materialize d now) fun course s' result =>
      ∃ front rest, Advances fails m d now s front rest course s' result := by
  refine (achieves_chunks hfind hroom).mono ?_
  rintro course s' result ⟨done, rest, given, hchunks, hgiven, hadds, hsum, hends⟩
  have hmissing : m.missing d now s = done.flatten ++ rest.flatten := by
    rw [← flatten_chunksOf m.insertBatchSize (m.missing d now s), hchunks, List.flatten_append]
  have hne : rest.flatten = [] → rest = [] := fun hnil => by
    refine List.eq_nil_iff_forall_not_mem.mpr fun chunk hchunk => ?_
    have hmem : chunk ∈ chunksOf m.insertBatchSize (m.missing d now s) :=
      hchunks ▸ List.mem_append_right done hchunk
    exact ne_nil_of_mem_chunksOf hmem (List.flatten_eq_nil_iff.mp hnil chunk hchunk)
  refine ⟨done.flatten, rest.flatten, hmissing, ⟨given, hgiven, hadds.rows⟩,
    missing_of_adds hmissing hgiven hadds, fun hnil => ?_, fun hnil => ?_, fun hmore => ?_, hsum⟩
  · rw [hnil, List.map_eq_nil_iff] at hgiven
    rw [hgiven] at hadds
    cases hadds
    rfl
  · rw [hne hnil] at hends hchunks
    rw [List.append_nil] at hchunks
    cases hends
    rw [Nat.zero_add, Nat.zero_add, ← hchunks, length_chunksOf, flatten_chunksOf]
  · cases hends with
    | whole => exact absurd rfl hmore
    | cut hmay =>
      refine ⟨dvd_length_flatten hchunks, _, _, hmay, ?_⟩
      rw [Nat.zero_add]

theorem Advances.length_eq {front rest : List PlannedRun}
    {result : Except SchedulingError Materialization}
    (h : Advances fails m d now s front rest course s' result) :
    s'.runs.entries.length = s.runs.entries.length + front.length := by
  obtain ⟨given, rfl, hrows⟩ := h.rows
  rw [hrows.length_eq, List.length_map]

theorem Advances.hasRoomFor {front rest : List PlannedRun}
    {result : Except SchedulingError Materialization}
    (h : Advances fails m d now s front rest course s' result)
    (hroom : s.HasRoomFor (m.missing d now s).length) :
    s'.HasRoomFor (m.missing d now s').length := by
  rw [h.missing_eq, List.length_append] at hroom
  rw [h.missing_after]
  unfold HasRoomFor at hroom ⊢
  rw [h.length_eq, Nat.add_assoc]
  exact hroom

theorem achieves_materialize_whole (hroom : s.HasRoomFor (m.missing d now s).length) :
    Achieves (fun _ => False) s (m.materialize d now) fun course s' result =>
      Advances (fun _ => False) m d now s (m.missing d now s) [] course s' result := by
  refine (achieves_materialize (fun _ _ _ h => h) hroom).mono ?_
  rintro course s' result ⟨front, rest, h⟩
  have hrest : rest = [] := by
    by_contra hmore
    obtain ⟨_, _, _, hnever, _⟩ := h.cut hmore
    exact hnever
  subst hrest
  have hfront := h.missing_eq
  rw [List.append_nil] at hfront
  rwa [hfront]

theorem toRun_of_mem_candidates {p : PlannedRun} (h : p ∈ m.candidates d now) (id : RunId) :
    (p.toRun d.id id).kind = .scheduled ∧ (p.toRun d.id id).deployment = some d.id ∧
      (p.toRun d.id id).key = some (runKey d.id p.scheduledTime) ∧
      (p.toRun d.id id).tags = d.tags := by
  rw [candidates_eq] at h
  obtain ⟨t, _, rfl⟩ := List.mem_map.mp h
  exact ⟨rfl, rfl, rfl, rfl⟩

/-- **A materialization goes on where an earlier one failed.** Where nobody else works on a store
that has ids left, let any tries to store a chunk fail. The call comes to its end with a beginning
of the missing runs stored, oldest first, as scheduled runs of the deployment with its tags, in
full chunks unless that is all of them, and with nothing else changed. Its result and what it makes
known tell how many they are. If the same call is made again and nothing fails, it stores exactly
the rest, and a third one finds nothing missing and leaves the store as it is. -/
theorem materialize_resumes (m : Materializer) (d : Deployment) (now : Instant) {s : Store}
    (hroom : s.HasRoomFor (m.missing d now s).length) :
    (m.missing d now s).Pairwise (fun p q => p.scheduledTime < q.scheduledTime) ∧
    (∀ p ∈ m.missing d now s, ∀ id,
      (p.toRun d.id id).kind = .scheduled ∧ (p.toRun d.id id).deployment = some d.id ∧
        (p.toRun d.id id).key = some (runKey d.id p.scheduledTime) ∧
        (p.toRun d.id id).tags = d.tags) ∧
    Achieves Exchange.InsertFailed s (m.materialize d now) fun course s₁ result =>
      ∃ front rest, Advances Exchange.InsertFailed m d now s front rest course s₁ result ∧
        Achieves (fun _ => False) s₁ (m.materialize d now) fun course s₂ result =>
          Advances (fun _ => False) m d now s₁ rest [] course s₂ result ∧
            Achieves (fun _ => False) s₂ (m.materialize d now) fun course s₃ result =>
              Advances (fun _ => False) m d now s₂ [] [] course s₃ result ∧ s₃ = s₂ := by
  have hfind : ∀ deployment keys e, ¬ Exchange.InsertFailed
      ⟨.findExisting deployment keys, Except.error e⟩ := fun _ _ _ h => nomatch h
  refine ⟨pairwise_missing, fun p hp => toRun_of_mem_candidates (List.mem_of_mem_filter hp), ?_⟩
  refine (achieves_materialize hfind hroom).mono ?_
  rintro course s₁ result ⟨front, rest, hfirst⟩
  have hroom₁ := hfirst.hasRoomFor hroom
  have hagain := achieves_materialize_whole hroom₁
  rw [hfirst.missing_after] at hagain
  refine ⟨front, rest, hfirst, hagain.mono fun course s₂ result hsecond => ⟨hsecond, ?_⟩⟩
  have hlast := achieves_materialize_whole (hsecond.hasRoomFor hroom₁)
  rw [hsecond.missing_after] at hlast
  exact hlast.mono fun course s₃ result hthird => ⟨hthird, hthird.unchanged rfl⟩

/-- Two runs in a chunk. -/
def inPairs : Materializer where
  insertBatchSize := 2

/-- Three runs are planned ahead. -/
def threeHours : Deployment where
  id := "etl"
  name := "etl"
  schedule := some hourly
  createdAt := .epoch
  updatedAt := .epoch

/-- The second of two chunks has one run. Nothing, one chunk or both are stored at first, and all
three runs in the end. -/
theorem materialize_resumes_threeHours :
    (inPairs.missing threeHours .epoch empty).length = 3 ∧ empty.HasRoomFor 3 ∧
    Achieves Exchange.InsertFailed empty (inPairs.materialize threeHours .epoch)
      fun _ s₁ result =>
        (result = .ok { candidates := 3, inserted := 3, chunks := 2 } ∨
          ∃ n e, (n = 0 ∨ n = 2) ∧ result = .error (.partialBatch "etl" n e)) ∧
        Achieves (fun _ => False) s₁ (inPairs.materialize threeHours .epoch)
          fun _ s₂ _ => s₂.runs.entries.length = 3 := by
  have hmissing : (inPairs.missing threeHours .epoch empty).length = 3 := by decide +kernel
  have hcandidates : (inPairs.candidates threeHours .epoch).length = 3 := by decide +kernel
  have hroom : empty.HasRoomFor 3 := by
    unfold HasRoomFor
    decide
  refine ⟨hmissing, hroom, ?_⟩
  refine (materialize_resumes inPairs threeHours .epoch (hmissing.symm ▸ hroom)).2.2.mono ?_
  rintro _ s₁ result ⟨front, rest, hfirst, hagain⟩
  have hlength : front.length + rest.length = 3 := by
    rw [← List.length_append, ← hfirst.missing_eq, hmissing]
  have hfirstLength := hfirst.length_eq
  refine ⟨?_, hagain.mono fun _ s₂ _ ⟨hsecond, _⟩ => ?_⟩
  · by_cases hrest : rest = []
    · rw [hrest, List.length_nil, Nat.add_zero] at hlength
      refine Or.inl ?_
      rw [hfirst.whole hrest, hcandidates, hmissing, hlength]
      rfl
    · obtain ⟨⟨k, hk⟩, _, e, _, hresult⟩ := hfirst.cut hrest
      have hsome := List.length_pos_iff.mpr hrest
      have hbatch : max inPairs.insertBatchSize 1 = 2 := rfl
      rw [hbatch] at hk
      exact Or.inr ⟨front.length, e, by omega, hresult⟩
  · rw [hsecond.length_eq, hfirstLength, Nat.add_assoc, hlength]
    rfl

end Materializer

end RunScheduler
