import RunScheduler.Proofs.Housekeeping.Completeness
import RunScheduler.Proofs.Lifecycle.Alone
import RunScheduler.Proofs.Store.Order

/-!
# Sweeps that are alone with the store

A pass over late runs or expired pauses that nobody interferes with attempts to change each run that
its filter selects when it begins, once and in order, whatever changes fail
(`sweeps_attempt_each_once`).

What is selected between two pages is known exactly: the runs whose change failed, and after them
those not attempted yet (`Progress.selected_eq`). The number of failures is the offset of the next
page, which therefore begins with the first run not attempted.
-/

namespace RunScheduler

/-- Whether runs were asked for. -/
def Exchange.isQuery : Exchange → Bool
  | ⟨.query _, _⟩ => true
  | _ => false

namespace Housekeeping

open Script Store

/-- The store may fail to move a run, for any reason but that the move is not allowed. -/
def MoveFails (x : Exchange) : Prop :=
  ∃ id expected next e, x = ⟨.commit id expected next, Except.error e⟩ ∧
    ∀ run from? target, e ≠ .illegalMove run from? target

/-- One run that a sweep has attempted to change. -/
structure Attempt where
  run : Run
  course : List Exchange
  outcome : Except TransitionError Run

namespace Attempt

def succeeded (a : Attempt) : Bool := a.outcome.isOk

/-- The ids of the runs whose change succeeded. -/
def moved (attempts : List Attempt) : Finset RunId :=
  ((attempts.filter (·.succeeded)).map (·.run.id)).toFinset

variable {attempts : List Attempt} {a : Attempt}

theorem mem_moved_iff {id : RunId} :
    id ∈ moved attempts ↔ ∃ a ∈ attempts, a.succeeded = true ∧ a.run.id = id := by
  simp [moved, and_assoc]

theorem mem_moved_iff_succeeded (hnodup : (attempts.map (·.run.id)).Nodup) (ha : a ∈ attempts) :
    a.run.id ∈ moved attempts ↔ a.succeeded = true := by
  rw [mem_moved_iff]
  constructor
  · rintro ⟨b, hb, hsucceeded, hid⟩
    rwa [← List.inj_on_of_nodup_map hnodup hb ha hid]
  · exact fun hsucceeded => ⟨a, ha, hsucceeded, rfl⟩

theorem moved_nil : moved [] = ∅ := List.toFinset_nil

theorem moved_append_of_succeeded (h : a.succeeded = true) :
    moved (attempts ++ [a]) = insert a.run.id (moved attempts) := by
  rw [moved, List.filter_append, List.filter_cons_of_pos h, List.filter_nil, List.map_append,
    List.toFinset_append, ← moved, Finset.insert_eq, Finset.union_comm]
  rfl

theorem moved_append_of_failed (h : a.succeeded = false) :
    moved (attempts ++ [a]) = moved attempts := by
  rw [moved, List.filter_append, List.filter_cons_of_neg (Bool.eq_false_iff.mp h), List.filter_nil,
    List.append_nil, ← moved]

end Attempt

variable {l : Lifecycle} {filter : RunFilter} {change : Change} {s s₁ s' : Store}
  {attempts : List Attempt} {pending : Nat} {past : List Exchange} {stats : PassStats}

/-! ### What a sweep has done so far -/

/-- Some runs were attempted, and some of the page are still pending. -/
structure Progress (l : Lifecycle) (change : Change) (s : Store) (attempts : List Attempt)
    (pending : Nat) (past : List Exchange) (s' : Store) (stats : PassStats) : Prop where
  takes : ∀ a ∈ attempts,
    (l.transition a.run.id change.expected change.next).Takes a.course a.outcome
  entered : Entered change.next (Attempt.moved attempts) s s'
  course_eq : past.filter (!·.isQuery) = attempts.flatMap (·.course)
  stats_eq : stats = {
    examined := attempts.length + pending
    transitioned := (attempts.filter (·.succeeded)).length
    failed := (attempts.filter (!·.succeeded)).length }

theorem not_isQuery_of_transition {id : RunId} {expected : Expected} {next : State}
    {course : List Exchange} {outcome : Except TransitionError Run}
    (h : (l.transition id expected next).Takes course outcome) :
    course.filter (!·.isQuery) = course := by
  refine List.filter_eq_self.mpr fun x hx => ?_
  have hsort := Lifecycle.asks_transition course outcome h x hx
  obtain ⟨request, reply⟩ := x
  cases request with
  | query filter => rcases hsort with hsort | hsort <;> cases hsort
  | _ => rfl

theorem Suits.not_selects_enter (h : Suits filter change) (r : Run) :
    filter.selects (r.enter change.next) = false := by
  have hself (k : StateKind) : k.canBecome k = false := by cases k <;> rfl
  refine Bool.eq_false_iff.mpr fun hselects => ?_
  have hmay := h.mayMove hselects
  rw [Run.mayMove, Bool.and_eq_true] at hmay
  have hkind : change.next.kind.canBecome change.next.kind = true := hmay.2
  rw [hself] at hkind
  cases hkind

/-- What is still selected: the runs whose change failed, and those not attempted yet. -/
theorem Progress.selected_eq (hs : s.WellFormed) (hsuits : Suits filter change)
    (h : Progress l change s attempts pending past s' stats) {rest : List Run}
    (hselected : s.selected filter = attempts.map (·.run) ++ rest) :
    s'.selected filter = (attempts.filter (!·.succeeded)).map (·.run) ++ rest := by
  have hnodup := nodup_ids_selected hs filter
  rw [hselected, List.map_append, List.map_map, List.nodup_append] at hnodup
  obtain ⟨hattempted, _, hdisjoint⟩ := hnodup
  rw [selected_of_leaving hs h.entered hsuits.not_selects_enter, hselected, List.filter_append,
    List.filter_map]
  congr 1
  · congr 1
    refine List.filter_congr fun a ha => ?_
    rw [Function.comp, Bool.eq_iff_iff, decide_eq_true_eq,
      Attempt.mem_moved_iff_succeeded hattempted ha, Bool.not_eq_true', Bool.not_eq_true]
  · refine List.filter_eq_self.mpr fun r hr => decide_eq_true fun hmem => ?_
    obtain ⟨a, ha, _, hid⟩ := Attempt.mem_moved_iff.mp hmem
    exact hdisjoint _ (List.mem_map_of_mem ha) _ (List.mem_map_of_mem hr) hid

/-- The number of failures is the offset of the next page, which therefore begins with the first
run not attempted. -/
theorem Progress.query_eq (hs : s.WellFormed) (hsuits : Suits filter change)
    (h : Progress l change s attempts pending past s' stats) {rest : List Run}
    (hselected : s.selected filter = attempts.map (·.run) ++ rest) (limit : Nat) :
    s'.query (filter.page limit stats.failed) = rest.take limit := by
  have hfailed : stats.failed = ((attempts.filter (!·.succeeded)).map (·.run)).length := by
    rw [h.stats_eq, List.length_map]
  rw [query_page, h.selected_eq hs hsuits hselected, hfailed, List.drop_left]

theorem Progress.read (h : Progress l change s attempts 0 past s' stats) (filter : RunFilter)
    (page : List Run) :
    Progress l change s attempts page.length (past ++ [⟨.query filter, Except.ok page⟩]) s'
      { stats with examined := stats.examined + page.length } where
  takes := h.takes
  entered := h.entered
  course_eq := by
    rw [List.filter_append, h.course_eq]
    exact List.append_nil _
  stats_eq := by
    rw [h.stats_eq]
    rfl

/-! ### The loops of a sweep -/

theorem Progress.attempt (hs : s.WellFormed)
    (h : Progress l change s attempts (pending + 1) past s₁ stats) {a : Attempt} {s₂ : Store}
    (hget : s.getRun a.run.id = some a.run) (hnew : a.run.id ∉ Attempt.moved attempts)
    (hcommit : s₁.commit a.run.id change.expected change.next =
      .ok (s₂, a.run.enter change.next))
    (htakes : (l.transition a.run.id change.expected change.next).Takes a.course a.outcome)
    (hmoves : l.Moves MoveFails a.run.id change.expected change.next s₁ s₂
      (a.run.enter change.next) s' a.outcome) :
    Progress l change s (attempts ++ [a]) pending (past ++ a.course) s'
      (stats.count a.outcome) := by
  obtain ⟨hattempts, hentered, hcourse, rfl⟩ := h
  refine ⟨List.forall_mem_append.mpr ⟨hattempts, fun b hb => ?_⟩, ?_, ?_, ?_⟩
  · rw [List.mem_singleton.mp hb]
    exact htakes
  · generalize houtcome : a.outcome = outcome at hmoves
    cases hmoves with
    | made =>
      rw [Attempt.moved_append_of_succeeded (by rw [Attempt.succeeded, houtcome]; rfl)]
      exact hentered.commit hs hget hnew hcommit
    | failed =>
      rw [Attempt.moved_append_of_failed (by rw [Attempt.succeeded, houtcome]; rfl)]
      exact hentered
  · rw [List.filter_append, hcourse, not_isQuery_of_transition htakes, List.flatMap_append,
      List.flatMap_singleton]
  · generalize houtcome : a.outcome = outcome at hmoves
    simp only [List.filter_append, List.length_append, List.filter_singleton, Attempt.succeeded,
      houtcome]
    have hexamined : attempts.length + (pending + 1) = attempts.length + 1 + pending := by omega
    cases hmoves with
    | made => simp [PassStats.count, Except.isOk, Except.toBool, hexamined]
    | @failed e hmay =>
      obtain ⟨_, _, _, _, heq, hlegal⟩ := hmay
      cases heq
      have hfailed : (TransitionError.ofStore l.retry.attempts e).isIllegal = false :=
        Bool.eq_false_iff.mpr fun h => by
          obtain ⟨run, from?, target, rfl⟩ := (TransitionError.isIllegal_ofStore _ _).mp h
          exact hlegal run from? target rfl
      simp [PassStats.count, Except.isOk, Except.toBool, hexamined, hfailed]

theorem achieves_changeAll (hs : s.WellFormed) (hnext : change.next.kind ≠ .running)
    {runs : List Run} (h : Progress l change s attempts runs.length past s₁ stats)
    (hruns : ∀ r ∈ runs, s.getRun r.id = some r ∧
      r.mayMove change.expected change.next = true)
    (hnodup : ((attempts.map (·.run) ++ runs).map (·.id)).Nodup) :
    Achieves MoveFails s₁ (changeAll l change stats runs) fun course s' stats' =>
      ∃ more : List Attempt, more.map (·.run) = runs ∧
        Progress l change s (attempts ++ more) 0 (past ++ course) s' stats' := by
  induction runs generalizing attempts past s₁ stats with
  | nil =>
    refine .done ⟨[], rfl, ?_⟩
    rw [List.append_nil, List.append_nil]
    exact h
  | cons r runs ih =>
    obtain ⟨hget, hmay⟩ := hruns r List.mem_cons_self
    have hnew : r.id ∉ Attempt.moved attempts := fun hmem => by
      obtain ⟨a, ha, _, hid⟩ := Attempt.mem_moved_iff.mp hmem
      rw [List.map_append, List.nodup_append] at hnodup
      exact hnodup.2.2 _ (List.mem_map_of_mem (List.mem_map_of_mem ha)) _
        (List.mem_map_of_mem List.mem_cons_self) hid
    -- Only runs that were attempted before have moved, so this one is as it was read.
    have hget₁ := (h.entered.getRun_of_notMem hs hnew).trans hget
    have hmove := commit_of_getRun change.expected hget₁ hnext
    rw [if_pos hmay] at hmove
    obtain ⟨s₂, hcommit⟩ := hmove
    rw [changeAll]
    refine Achieves.bind (Achieves.takes (Lifecycle.achieves_transition hcommit)) ?_
    rintro course s₃ outcome ⟨htakes, hmoves⟩
    have hone := h.attempt (a := ⟨r, course, outcome⟩) hs hget hnew hcommit htakes hmoves
    have hnodup' : (((attempts ++ [(⟨r, course, outcome⟩ : Attempt)]).map (·.run) ++ runs).map
        (·.id)).Nodup := by
      simpa using hnodup
    refine (ih hone (fun r hr => hruns r (List.mem_cons_of_mem _ hr)) hnodup').mono ?_
    rintro later s' stats' ⟨more, rfl, hmore⟩
    refine ⟨⟨r, course, outcome⟩ :: more, rfl, ?_⟩
    rwa [List.append_assoc, List.append_assoc] at hmore

theorem achieves_sweep (hs : s.WellFormed) (hsuits : Suits filter change) :
    Achieves MoveFails s (sweep l filter change) fun course s' result =>
      ∃ attempts stats, result = .ok stats ∧ attempts.map (·.run) = s.selected filter ∧
        Progress l change s attempts 0 course s' stats := by
  have hstart : Progress l change s [] 0 [] s {} :=
    ⟨fun _ ha => absurd ha List.not_mem_nil, Attempt.moved_nil ▸ .refl hs _, rfl, rfl⟩
  -- Before a round the first of the selected runs have been attempted, and the rest has not.
  refine Achieves.repeatFrom (fun left past s' stats => ∃ attempts rest,
    s.selected filter = attempts.map (·.run) ++ rest ∧ rest.length = left ∧
      Progress l change s attempts 0 past s' stats) ⟨[], _, rfl, rfl, hstart⟩ ?_
  rintro left past s₁ stats ⟨attempts, rest, hselected, hleft, hprogress⟩
  refine Achieves.ask ⟨_, s₁, .answered (.query _)⟩ fun reply s₂ hreply => ?_
  have hnever (filter : RunFilter) (e : StoreError) :
      ¬ MoveFails ⟨.query filter, Except.error e⟩ := by
    rintro ⟨_, _, _, _, heq, _⟩
    cases heq
  obtain ⟨rfl, rfl⟩ := hreply.of_query hnever
  rw [hprogress.query_eq hs hsuits hselected]
  generalize hlimit : max filter.limit 1 = limit
  have hpending := hprogress.read (filter.page limit stats.failed) (rest.take limit)
  have hknown : ∀ r ∈ rest.take limit, s.getRun r.id = some r ∧
      r.mayMove change.expected change.next = true := by
    intro r hr
    have hmem : r ∈ s.selected filter :=
      hselected ▸ List.mem_append_right _ (List.mem_of_mem_take hr)
    obtain ⟨hget, hselects⟩ := (mem_selected_iff hs).mp hmem
    exact ⟨hget, hsuits.mayMove hselects⟩
  have hnodup : ((attempts.map (·.run) ++ rest.take limit).map (·.id)).Nodup := by
    have hall := nodup_ids_selected hs filter
    rw [hselected] at hall
    exact hall.sublist (((List.Sublist.refl _).append (List.take_sublist _ _)).map _)
  show Achieves _ _ (Script.bind (changeAll l change
    { stats with examined := stats.examined + (rest.take limit).length } (rest.take limit)) _) _
  refine Achieves.bind
    (achieves_changeAll hs hsuits.not_running hpending hknown hnodup) ?_
  rintro course s' stats' ⟨more, hmore, hprogress'⟩
  rw [List.append_assoc, List.singleton_append, ← List.append_nil course] at hprogress'
  show Achieves _ _
    (if (rest.take limit).length < limit then Script.done _ else Script.done _) _
  rw [List.length_take]
  split_ifs with hlast
  · refine .done ⟨attempts ++ more, stats', rfl, ?_, ?_⟩
    · rw [hselected, List.map_append, hmore, List.take_of_length_le (by omega)]
    · exact hprogress'
  · refine .done ⟨rest.length - limit, by omega, attempts ++ more, rest.drop limit, ?_, ?_, ?_⟩
    · rw [hselected, List.map_append, hmore, List.append_assoc, List.take_append_drop]
    · exact List.length_drop
    · exact hprogress'

/-! ### Whole passes -/

/-- What a pass that attempts each of the selected runs has done by its end. -/
structure AttemptedAll (l : Lifecycle) (filter : RunFilter) (change : Change) (s : Store)
    (attempts : List Attempt) (course : List Exchange) (s' : Store) (stats : PassStats) :
    Prop where
  runs_eq : attempts.map (·.run) = s.selected filter
  once : (attempts.map (·.run.id)).Nodup
  takes : ∀ a ∈ attempts,
    (l.transition a.run.id change.expected change.next).Takes a.course a.outcome
  /-- The pass asks for pages, and for nothing else but what belongs to its attempts. -/
  course_eq : course.filter (!·.isQuery) = attempts.flatMap (·.course)
  getRun_of_mem : ∀ a ∈ attempts, s'.getRun a.run.id =
    some (if a.succeeded then a.run.enter change.next else a.run)
  getRun_of_notMem : ∀ id, id ∉ attempts.map (·.run.id) → s'.getRun id = s.getRun id
  examined_eq : stats.examined = attempts.length
  transitioned_eq : stats.transitioned = (attempts.filter (·.succeeded)).length
  add_eq : stats.transitioned + stats.failed = stats.examined
  skipped_eq : stats.skipped = 0

theorem Progress.attemptedAll (hs : s.WellFormed) {course : List Exchange}
    (h : Progress l change s attempts 0 course s' stats)
    (hruns : attempts.map (·.run) = s.selected filter) :
    AttemptedAll l filter change s attempts course s' stats := by
  have honce : (attempts.map (·.run.id)).Nodup := by
    have hnodup := nodup_ids_selected hs filter
    rwa [← hruns, List.map_map] at hnodup
  obtain ⟨htakes, hentered, hcourse, rfl⟩ := h
  refine ⟨hruns, honce, htakes, hcourse, fun a ha => ?_, fun id hid => ?_, rfl, rfl, ?_, rfl⟩
  · have hget : s.getRun a.run.id = some a.run := by
      have hmem : a.run ∈ s.selected filter := hruns ▸ List.mem_map_of_mem ha
      exact ((mem_selected_iff hs).mp hmem).1
    rw [hentered.getRun, hget, Option.map_some, Run.entered]
    simp only [Attempt.mem_moved_iff_succeeded honce ha]
  · refine hentered.getRun_of_notMem hs fun hmem => ?_
    obtain ⟨a, ha, _, rfl⟩ := Attempt.mem_moved_iff.mp hmem
    exact hid (List.mem_map_of_mem ha)
  · exact (List.length_eq_length_filter_add _).symm

variable {sweeper : Sweeper} {now : Instant}

/-- **A sweep attempts each of its runs once.** Nobody else works on the store, which may fail any
tries of any moves. If the instant up to which runs matter is in the calendar, the pass comes to an
end. By then it has made one attempt of each run that its filter selected at the beginning, in
their order. Exactly the runs whose attempt succeeded have moved, and the counts are right. If no
attempt failed, another pass at the same instant finds nothing to do. -/
theorem sweeps_attempt_each_once (hs : s.WellFormed)
    (hfilter : sweeper.filter? now = some filter) :
    Achieves MoveFails s (sweeper.pass now) fun course s' result =>
      ∃ attempts stats, result = .ok stats ∧
        AttemptedAll sweeper.lifecycle filter (sweeper.change now) s attempts course s' stats ∧
        (stats.failed = 0 →
          Achieves MoveFails s' (sweeper.pass now) fun _ _ result => result = .ok {}) := by
  have hsuits := Sweeper.suits hfilter
  rw [Sweeper.pass_eq, hfilter]
  refine (achieves_sweep hs hsuits).mono ?_
  rintro course s' result ⟨attempts, stats, rfl, hruns, hprogress⟩
  refine ⟨attempts, stats, rfl, hprogress.attemptedAll hs hruns, fun hnone => ?_⟩
  -- All attempts succeeded, so that nothing is selected any more.
  have hempty : s'.selected filter = [] := by
    have hselected : s.selected filter = attempts.map (·.run) ++ [] := by
      rw [hruns, List.append_nil]
    rw [hprogress.stats_eq] at hnone
    rw [hprogress.selected_eq hs hsuits hselected, List.length_eq_zero_iff.mp hnone]
    rfl
  refine (achieves_sweep hprogress.entered.wellFormed hsuits).mono ?_
  rintro course' s'' result ⟨again, stats', rfl, hruns', hprogress'⟩
  rw [hempty, List.map_eq_nil_iff] at hruns'
  rw [hprogress'.stats_eq, hruns']
  rfl

theorem sweeps_attempt_each_once_oneByOne :
    twoScheduled.WellFormed ∧ oneByOne.filter? anHourLater = some lateByThen ∧
      ∃ (course : List Exchange) (s' : Store) (attempts : List Attempt) (stats : PassStats),
        (oneByOne.pass anHourLater).Takes course (.ok stats) ∧
        twoScheduled.Attends MoveFails course s' ∧
        attempts.map (·.run) = [dueFirst, dueSecond] ∧ stats.examined = 2 := by
  have hs := reachable_twoScheduled.wellFormed
  have hboth : twoScheduled.selected lateByThen = [dueFirst, dueSecond] := by
    have hvalues : twoScheduled.runs.values.filter lateByThen.selects = [dueFirst, dueSecond] := rfl
    rw [selected, hvalues]
    exact List.mergeSort_of_pairwise (by decide)
  have hfilter : oneByOne.filter? anHourLater = some lateByThen := rfl
  have hpass := sweeps_attempt_each_once hs hfilter
  obtain ⟨course, s', result, htakes, hattends⟩ := hpass.ends.exists_takes
  obtain ⟨attempts, stats, rfl, hall, _⟩ := hpass.claim course s' result htakes hattends
  have hruns := hall.runs_eq.trans hboth
  refine ⟨hs, hfilter, course, s', attempts, stats, htakes, hattends, hruns, ?_⟩
  rw [hall.examined_eq, ← List.length_map, hruns]
  rfl

end Housekeeping

end RunScheduler
