import RunScheduler.Proofs.Materialization.Keys

/-!
# Materializations side by side

Several materializations share a store, in any order of their exchanges: two may find the same
runs missing before either stores them. What the store gains from a course of exchanges
(`Store.Gains`) is found for one exchange (`Answers.gains`) and adds up over the course
(`Serves.gains`), so it depends on what was handed in to be stored and not on the order.

When all are done, each deployment has the runs that it had and one run for each candidate of each
materialization, and what was reported adds up to what was added
(`materializations_side_by_side`).
-/

namespace RunScheduler

/-- The exchange hands in a planned run of a deployment to be stored. -/
inductive Exchange.HandsIn : Exchange → String → PlannedRun → Prop
  | intro {deployment : String} {runs : List PlannedRun} {reply : Except StoreError Nat}
      {p : PlannedRun} (h : p ∈ runs) :
      HandsIn ⟨.insertRuns deployment runs, reply⟩ deployment p

namespace Store

variable {s s₁ s' : Store} {course course' : List Exchange}

/-! ### What a store gains -/

/-- What becomes of a store that answers the exchanges of materializations. -/
structure Gains (s : Store) (course : List Exchange) (s' : Store) : Prop where
  wellFormed : s'.WellFormed
  keysExact : KeysExact s'
  /-- Runs stay as they are. -/
  getRun_eq : ∀ {id r}, s.getRun id = some r → s'.getRun id = some r
  /-- A new run was handed in. -/
  origin : ∀ {id r}, s'.getRun id = some r → s.getRun id = some r ∨
    ∃ x ∈ course, ∃ d p, x.HandsIn d p ∧ r = p.toRun d id
  /-- What was handed in is stored, or was before. -/
  mem_keyedTimes : ∀ d t, t ∈ s'.keyedTimes d ↔ t ∈ s.keyedTimes d ∨
    ∃ x ∈ course, ∃ p, x.HandsIn d p ∧ p.scheduledTime = t
  /-- What was found is stored. -/
  found : ∀ {d keys existing}, ⟨.findExisting d keys, Except.ok existing⟩ ∈ course →
    ∀ key ∈ existing, s'.runKeys.contains (keyEntry d key) = true
  length_eq : s'.runs.entries.length =
    s.runs.entries.length + (course.map Exchange.inserted).sum

theorem Gains.refl (hs : s.WellFormed) (hexact : KeysExact s) : Gains s [] s where
  wellFormed := hs
  keysExact := hexact
  getRun_eq h := h
  origin h := Or.inl h
  mem_keyedTimes d t := by simp
  found h := by cases h
  length_eq := rfl

theorem Gains.of_eq (hs : s.WellFormed) (hexact : KeysExact s) {x : Exchange}
    (hnone : ∀ d p, ¬ x.HandsIn d p) (hinserted : x.inserted = 0)
    (hfound : ∀ {d keys existing}, x = ⟨.findExisting d keys, Except.ok existing⟩ →
      ∀ key ∈ existing, s.runKeys.contains (keyEntry d key) = true) : Gains s [x] s where
  wellFormed := hs
  keysExact := hexact
  getRun_eq h := h
  origin h := Or.inl h
  mem_keyedTimes d t := by simp [hnone]
  found h := hfound (List.mem_singleton.mp h).symm
  length_eq := by simp [hinserted]

theorem Gains.insertRuns (hs : s.WellFormed) (hexact : KeysExact s) {deployment : String}
    {given : List (RunId × PlannedRun)} (hfresh : (Operation.insertRuns deployment given).Fresh s)
    (hplans : ∀ e ∈ given, e.2.KeyedFor deployment) :
    Gains s [⟨.insertRuns deployment (given.map (·.2)),
      Except.ok (s.insertRuns deployment given).2⟩] (s.insertRuns deployment given).1 := by
  have hchanges : Changes (fun d p => p.KeyedFor d) s (s.insertRuns deployment given).1 :=
    changes_insertRuns hplans hfresh.1 hfresh.2
  have hs' := hchanges.wellFormed hs
  have hexact' : KeysExact (s.insertRuns deployment given).1 :=
    hchanges.invariant (fun _ hexact hchange => hchange.keysExact hexact) hs hexact
  refine ⟨hs', hexact', fun {id r} hget => ?_, fun {id r} hget => ?_, fun d t => ?_,
    fun hmem => ?_, ?_⟩
  · rw [getRun_insertRuns_of_notMem, hget]
    intro hmem
    rw [hfresh.2 id hmem] at hget
    cases hget
  · refine (getRun_insertRuns hget).imp_right fun ⟨p, hp, hr⟩ => ?_
    exact ⟨_, List.mem_singleton_self _, deployment, p, .intro (List.mem_map_of_mem hp), hr⟩
  · rw [← hexact'.contains_iff hs', contains_insertRuns, hexact.contains_iff hs]
    refine or_congr_right ⟨?_, ?_⟩
    · rintro ⟨e, he, hentry⟩
      rw [hplans e he] at hentry
      obtain ⟨rfl, htime⟩ := keyEntry_runKey_injective hentry
      exact ⟨_, List.mem_singleton_self _, e.2, .intro (List.mem_map_of_mem he), htime⟩
    · rintro ⟨x, hx, p, hhands, rfl⟩
      rw [List.mem_singleton] at hx
      subst hx
      cases hhands with
      | intro hp =>
        obtain ⟨e, he, rfl⟩ := List.mem_map.mp hp
        exact ⟨e, he, by rw [hplans e he]⟩
  · have heq := List.mem_singleton.mp hmem
    cases heq
  · simp [length_insertRuns hfresh.1 hfresh.2, Exchange.inserted]

theorem Gains.append (h : Gains s course s₁) (h' : Gains s₁ course' s') :
    Gains s (course ++ course') s' where
  wellFormed := h'.wellFormed
  keysExact := h'.keysExact
  getRun_eq hget := h'.getRun_eq (h.getRun_eq hget)
  origin hget := by
    rcases h'.origin hget with hget | ⟨x, hx, hhands⟩
    · refine (h.origin hget).imp_right fun ⟨x, hx, hhands⟩ => ?_
      exact ⟨x, List.mem_append_left _ hx, hhands⟩
    · exact Or.inr ⟨x, List.mem_append_right _ hx, hhands⟩
  mem_keyedTimes d t := by
    rw [h'.mem_keyedTimes, h.mem_keyedTimes, or_assoc]
    simp only [List.mem_append, or_and_right, exists_or]
  found hmem key hkey := by
    rcases List.mem_append.mp hmem with hmem | hmem
    · exact h.keysExact.contains_of_getRun h'.keysExact h'.getRun_eq (h.found hmem key hkey)
    · exact h'.found hmem key hkey
  length_eq := by
    rw [h'.length_eq, h.length_eq, List.map_append, List.sum_append, Nat.add_assoc]

/-- One answer to a materialization. -/
theorem Answers.gains (hs : s.WellFormed) (hexact : KeysExact s) {x : Exchange}
    (h : Answers s x s') {m : Materializer} {d : Deployment} {now : Instant}
    (hwants : m.Wants d now x.request) : Gains s [x] s' := by
  cases h with
  | @insertRuns deployment given hfresh =>
    refine .insertRuns hs hexact hfresh fun e he => ?_
    exact ((hwants.keyedFor rfl).2 e.2 (List.mem_map_of_mem he)).2
  | findExisting deployment keys =>
    refine .of_eq hs hexact (fun d' p hhands => ?_) rfl fun heq key hkey => ?_
    · cases hhands
    · cases heq
      exact (List.mem_filter.mp hkey).2
  | commit => cases hwants
  | commitRejected => cases hwants
  | query => cases hwants
  | create => cases hwants
  | createRejected => cases hwants
  | listSchedulable => cases hwants
  | elsewhere helsewhere =>
    obtain ⟨request, reply⟩ := x
    cases hwants with
    | insert => cases helsewhere
    | find => cases helsewhere
    | emit => exact .of_eq hs hexact (fun _ _ hhands => nomatch hhands) rfl fun heq => nomatch heq
    | wait => exact .of_eq hs hexact (fun _ _ hhands => nomatch hhands) rfl fun heq => nomatch heq

theorem Serves.gains (hs : s.WellFormed) (hexact : KeysExact s) (h : Serves s course s')
    (hwants : ∀ x ∈ course, ∃ m d now, Materializer.Wants m d now x.request) :
    Gains s course s' := by
  induction h with
  | nil => exact .refl hs hexact
  | cons hanswer _ ih =>
    obtain ⟨m, d, now, hx⟩ := hwants _ List.mem_cons_self
    have hgains := hanswer.gains hs hexact hx
    exact hgains.append (ih hgains.wellFormed hgains.keysExact
      fun x hx => hwants x (List.mem_cons_of_mem _ hx))

theorem Answers.not_failed {x : Exchange} (h : Answers s x s') {m : Materializer} {d : Deployment}
    {now : Instant} (hwants : m.Wants d now x.request) : ¬ x.Failed := by
  intro hfailed
  cases h with
  | insertRuns => cases hfailed
  | findExisting => cases hfailed
  | elsewhere helsewhere => cases hfailed <;> cases helsewhere
  | commit | commitRejected | query | create | createRejected | listSchedulable => cases hwants

theorem Serves.not_failed (h : Serves s course s')
    (hwants : ∀ x ∈ course, ∃ m d now, Materializer.Wants m d now x.request) :
    ∀ x ∈ course, ¬ x.Failed := by
  induction h with
  | nil => exact fun x hx => nomatch hx
  | cons hanswer _ ih =>
    intro x hx
    rcases List.mem_cons.mp hx with rfl | hx
    · obtain ⟨m, d, now, hrequest⟩ := hwants x List.mem_cons_self
      exact hanswer.not_failed hrequest
    · exact ih (fun x hx => hwants x (List.mem_cons_of_mem _ hx)) x hx

/-! ### When all calls are done -/

section Calls

open Materializer Script

variable {limit : Nat} {calls : List Call}
  {outcomes : List (Except SchedulingError Materialization)}

theorem gains_of_takes (hs : s.Scheduled)
    (htakes : (all limit (calls.map Call.script)).Takes course outcomes)
    (hserves : Serves s course s') : Gains s course s' ∧ ∀ x ∈ course, ¬ x.Failed := by
  have hwants : ∀ x ∈ course, ∃ m d now, Materializer.Wants m d now x.request := fun x hx => by
    obtain ⟨c, _, hrequest⟩ := asks_all course outcomes htakes x hx
    exact ⟨_, _, _, hrequest⟩
  exact ⟨hserves.gains hs.wellFormed hs.keysExact hwants, hserves.not_failed hwants⟩

theorem exists_call_of_handsIn (htakes : (all limit (calls.map Call.script)).Takes course outcomes)
    {x : Exchange} (hx : x ∈ course) {d : String} {p : PlannedRun} (hhands : x.HandsIn d p) :
    ∃ c ∈ calls, c.deployment.id = d ∧ p ∈ c.candidates := by
  obtain ⟨c, hc, hwants⟩ := asks_all course outcomes htakes x hx
  cases hhands with
  | intro hp =>
    obtain ⟨hd, hruns⟩ := Wants.keyedFor hwants rfl
    exact ⟨c, hc, hd.symm, (hruns p hp).1⟩

theorem mem_keyedTimes_of_takes (hs : s.Scheduled)
    (htakes : (all limit (calls.map Call.script)).Takes course outcomes)
    (hserves : Serves s course s') (d : String) (t : Instant) :
    t ∈ s'.keyedTimes d ↔
      t ∈ s.keyedTimes d ∨ ∃ c ∈ calls, c.deployment.id = d ∧ t ∈ c.times := by
  obtain ⟨hgains, hok⟩ := gains_of_takes hs htakes hserves
  obtain ⟨_, _, _, _, hcovered⟩ := of_materialize_all htakes hok
  have hcandidate {c : Call} {t : Instant} : t ∈ c.times ↔
      ∃ p ∈ c.candidates, p.scheduledTime = t := by
    rw [Call.times, Call.candidates, candidates_eq]
    simp [PlannedRun.ofDeployment]
  constructor
  · intro ht
    refine ((hgains.mem_keyedTimes d t).mp ht).imp_right ?_
    rintro ⟨x, hx, p, hhands, htime⟩
    obtain ⟨c, hc, hd, hp⟩ := exists_call_of_handsIn htakes hx hhands
    exact ⟨c, hc, hd, hcandidate.mpr ⟨p, hp, htime⟩⟩
  · rintro (ht | ⟨c, hc, rfl, ht⟩)
    · exact (hgains.mem_keyedTimes d t).mpr (Or.inl ht)
    · obtain ⟨p, hp, rfl⟩ := hcandidate.mp ht
      rcases hcovered c hc p hp with ⟨keys, existing, hx, hkey⟩ | ⟨chunk, reply, hx, hchunk⟩
      · have hentry := hgains.found hx p.key hkey
        rw [keyedFor_of_mem_candidates hp] at hentry
        exact (hgains.keysExact.contains_iff hgains.wellFormed).mp hentry
      · exact (hgains.mem_keyedTimes _ _).mpr (Or.inr ⟨_, hx, p, .intro hchunk, rfl⟩)

/-- **Materializations side by side store each candidate once.** Let clients and materializations
have led to a store. Whatever calls are then made side by side, however many at once and in
whichever order the store serves them, all of them succeed. The runs of before stay as they are,
and the new ones are candidates of the calls. Each deployment has a run with a key at exactly the
instants that it had one for and the candidates' instants of its calls, and only one at each, so
these do not depend on the order of the exchanges, on the order of the calls or on the limit. The
numbers of runs in the reports add up to the number of runs added, and so do those that are made
known. -/
theorem materializations_side_by_side (hs : s.Scheduled)
    (htakes : (all limit (calls.map Call.script)).Takes course outcomes)
    (hserves : Serves s course s') :
    ∃ reports : List Materialization, outcomes = reports.map .ok ∧
      (∀ id r, s.getRun id = some r → s'.getRun id = some r) ∧
      (∀ id r, s'.getRun id = some r → s.getRun id = some r ∨
        ∃ c ∈ calls, ∃ p ∈ c.candidates, r = p.toRun c.deployment.id id) ∧
      (∀ d, (s'.keyedTimes d).Nodup) ∧
      (∀ d t, t ∈ s'.keyedTimes d ↔
        t ∈ s.keyedTimes d ∨ ∃ c ∈ calls, c.deployment.id = d ∧ t ∈ c.times) ∧
      s'.runs.entries.length = s.runs.entries.length + (reports.map (·.inserted)).sum ∧
      (course.map Exchange.announced).sum = (reports.map (·.inserted)).sum ∧
      ∀ (limit' : Nat) (calls' : List Call) course' outcomes' s'', calls'.Perm calls →
        (all limit' (calls'.map Call.script)).Takes course' outcomes' → Serves s course' s'' →
        ∀ d, (s''.keyedTimes d).Perm (s'.keyedTimes d) := by
  obtain ⟨hgains, hok⟩ := gains_of_takes hs htakes hserves
  obtain ⟨reports, houtcomes, hinserted, hannounced, _⟩ := of_materialize_all htakes hok
  have htimes := mem_keyedTimes_of_takes hs htakes hserves
  have hnodup := hgains.keysExact.nodup_keyedTimes hgains.wellFormed
  refine ⟨reports, houtcomes, fun id r hget => hgains.getRun_eq hget, fun id r hget => ?_, hnodup,
    htimes, ?_, ?_, fun limit' calls' course' outcomes' s'' hperm htakes' hserves' d => ?_⟩
  · refine (hgains.origin hget).imp_right ?_
    rintro ⟨x, hx, d, p, hhands, rfl⟩
    obtain ⟨c, hc, rfl, hp⟩ := exists_call_of_handsIn htakes hx hhands
    exact ⟨c, hc, p, hp, rfl⟩
  · rw [hgains.length_eq, hinserted]
  · rw [hannounced, hinserted]
  · obtain ⟨hgains', _⟩ := gains_of_takes hs htakes' hserves'
    have hnodup' := hgains'.keysExact.nodup_keyedTimes hgains'.wellFormed d
    refine (List.perm_ext_iff_of_nodup hnodup' (hnodup d)).mpr fun t => ?_
    rw [htimes, mem_keyedTimes_of_takes hs htakes' hserves']
    simp only [hperm.mem_iff]

/-- Two calls that race for the same run. -/
def racers : List Call := [⟨{}, nested, .epoch⟩, ⟨{}, nested, .epoch⟩]

/-- Both find it missing. The first stores it, and the second comes too late. -/
def race : List (Fin 2 × Exchange) :=
  [(0, ⟨.findExisting nested.id [firstRun.key], Except.ok []⟩),
   (1, ⟨.findExisting nested.id [firstRun.key], Except.ok []⟩),
   (0, ⟨.insertRuns nested.id [firstRun], Except.ok 1⟩),
   (1, ⟨.insertRuns nested.id [firstRun], Except.ok 0⟩),
   (0, ⟨.emit (.runsScheduled nested.id 1 firstHour firstHour), ()⟩)]

/-- What is reported by a call that stored so many runs. -/
def reportOf (inserted : Nat) : Materialization :=
  { candidates := 1, inserted, chunks := 1 }

theorem takes_race : (all 2 (racers.map Call.script)).Takes (race.map (·.2))
    [.ok (reportOf 1), .ok (reportOf 0)] := by
  have hjobs : ∀ i : Fin 2, ((racers.map Call.script).get i).Takes (courseOf i race)
      (.ok (reportOf (1 - i))) := by
    intro i
    match i with
    | 0 => exact takes_nested 1
    | 1 => exact takes_nested 0
  have hlimit : KeepsLimit 2 race := fun _ _ _ _ => Finset.card_le_univ _
  exact @Takes.all _ 2 (racers.map Call.script) race (fun i => .ok (reportOf (1 - i))) hjobs hlimit

theorem serves_race : Serves empty (race.map (·.2)) oneStored := by
  have hlate : Answers oneStored ⟨.insertRuns nested.id [firstRun], Except.ok 0⟩ oneStored := by
    have hfresh : (Operation.insertRuns nested.id [(⟨2⟩, firstRun)]).Fresh oneStored :=
      ⟨List.nodup_singleton _, fun id hid => by rw [List.mem_singleton.mp hid]; rfl⟩
    have hkey : oneStored.runKeys.contains (keyEntry nested.id firstRun.key) = true :=
      contains_insertRuns.mpr (Or.inr ⟨_, List.mem_cons_self, rfl⟩)
    have hsame : oneStored.insertRuns nested.id [(⟨2⟩, firstRun)] = (oneStored, 0) := by
      rw [insertRuns_cons, if_pos hkey]
      rfl
    have hanswer := Answers.insertRuns hfresh
    rw [hsame] at hanswer
    exact hanswer
  exact .cons (.findExisting _ _) (.cons (.findExisting _ _) (.cons answers_firstRun
    (.cons hlate (.cons (.elsewhere rfl) (.nil _)))))

theorem scheduled_empty : Scheduled empty :=
  ⟨[], .nil _, fun _ => ⟨{}, nested, .epoch, _, _, takes_nested 0⟩⟩

/-- Together they store one run. -/
theorem materializations_race :
    Scheduled empty ∧
    (all 2 (racers.map Call.script)).Takes (race.map (·.2)) [.ok (reportOf 1), .ok (reportOf 0)] ∧
    Serves empty (race.map (·.2)) oneStored ∧
    (∀ t, t ∈ oneStored.keyedTimes nested.id ↔ t = firstHour) ∧
    (oneStored.keyedTimes nested.id).Nodup ∧
    oneStored.runs.entries.length = 1 ∧ ((race.map (·.2)).map Exchange.announced).sum = 1 := by
  obtain ⟨reports, houtcomes, _, _, hnodup, htimes, hlength, hannounced, _⟩ :=
    materializations_side_by_side scheduled_empty takes_race serves_race
  have hreports : reports = [reportOf 1, reportOf 0] :=
    (List.map_inj_right fun _ _ => Except.ok.inj).mp houtcomes.symm
  have hracer : ∀ c ∈ racers, c.deployment.id = nested.id ∧ c.times = [firstHour] := by
    intro c hc
    simp only [racers, List.mem_cons, List.not_mem_nil, or_false, or_self] at hc
    rw [hc]
    exact ⟨rfl, candidateTimes_nested⟩
  rw [hreports] at hlength hannounced
  refine ⟨scheduled_empty, takes_race, serves_race, fun t => ?_, hnodup _, hlength, hannounced⟩
  rw [htimes]
  constructor
  · rintro (h | ⟨c, hc, _, ht⟩)
    · cases h
    · rw [(hracer c hc).2] at ht
      exact List.mem_singleton.mp ht
  · rintro rfl
    have hmem : (⟨{}, nested, .epoch⟩ : Call) ∈ racers := List.mem_cons_self
    refine Or.inr ⟨_, hmem, rfl, ?_⟩
    rw [(hracer _ hmem).2]
    exact List.mem_singleton_self _

end Calls

end Store

end RunScheduler
