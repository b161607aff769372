import Mathlib.Data.List.Perm.Subperm
import RunScheduler.Proofs.RunId
import RunScheduler.Proofs.Store.Operation

/-!
# Slots of running runs

A slot is held under a deployment's id and a run's id exactly while the run belongs to the
deployment and is running (`SlotsExact`): every change of a store keeps it so
(`Change.slotsExact`), whatever becomes of deployments and their limits in between.

So a deployment has at most as many running runs as slots are counted for it
(`length_running_le`), and a run that starts running leaves no more of them than its deployment
allows (`slots_of_running_runs`).
-/

namespace RunScheduler.Store

variable {plans : String → PlannedRun → Prop} {s s' : Store}

/-! ### Entries -/

theorem slotEntry_injective {d d' : String} {id id' : RunId}
    (h : slotEntry d id = slotEntry d' id') : d = d' ∧ id = id' := by
  have hlist := congrArg String.toList h
  simp only [slotEntry, RunId.toString, String.toList_append, String.toList_ofList] at hlist
  obtain ⟨hfront, hid⟩ := List.append_inj' hlist (by rw [RunId.length_toText, RunId.length_toText])
  have hd : d = d' := String.toList_inj.mp (List.append_cancel_right hfront)
  exact ⟨hd, RunId.toString_injective (by rw [RunId.toString, RunId.toString, hid])⟩

theorem slotEntry_mem_range (d : String) (id : RunId) :
    ¬ slotEntry d id < d ++ "|" ∧ slotEntry d id < d ++ "\x7d" := by
  simp only [String.lt_iff, slotEntry, String.toList_append]
  refine ⟨List.IsPrefix.le (List.prefix_append _ _), ?_⟩
  rw [List.append_assoc]
  refine List.append_left_lt (List.cons_lt_cons_iff.mpr (Or.inl ?_))
  decide

/-! ### Slots and running runs -/

/-- A slot is held by a run exactly while the run is running, under the id of its deployment. -/
def SlotsExact (s : Store) : Prop :=
  ∀ entry id, s.slots.get? entry = some id ↔
    ∃ d r, entry = slotEntry d id ∧ s.getRun id = some r ∧ r.deployment = some d ∧
      r.kind = .running

theorem SlotsExact.empty : SlotsExact empty := by
  intro entry id
  constructor
  · intro h
    cases h
  · rintro ⟨_, _, _, h, _⟩
    cases h

theorem SlotMove.get?_slots_of_ne (hexact : SlotsExact s) {deployment : Option String}
    {mover id : RunId} {from? : Option StateKind} {target : StateKind}
    (h : SlotMove s deployment mover from? target s') (hne : mover ≠ id) (entry : String) :
    s'.slots.get? entry = some id ↔ s.slots.get? entry = some id := by
  have hentry : ∀ d, slotEntry d mover = entry → s.slots.get? entry ≠ some id := by
    rintro d rfl hget
    obtain ⟨d', _, heq, _⟩ := (hexact _ id).mp hget
    exact hne (slotEntry_injective heq).2
  cases h with
  | @taken d =>
    rw [Table.get?_insert]
    split_ifs with heq
    · exact ⟨fun h => absurd (Option.some.inj h) hne, fun h => absurd h (hentry d heq)⟩
    · rfl
  | @given d =>
    rw [Table.get?_erase]
    split_ifs with heq
    · exact (iff_false_intro (hentry d heq)).symm
    · rfl
  | unchanged => rfl

theorem SlotMove.get?_slots_self {deployment : Option String} {mover : RunId}
    {from? : Option StateKind} {target : StateKind}
    (h : SlotMove s deployment mover from? target s')
    (hbefore : ∀ entry, s.slots.get? entry = some mover ↔
      ∃ d, entry = slotEntry d mover ∧ deployment = some d ∧ from? = some .running)
    (entry : String) : s'.slots.get? entry = some mover ↔
      ∃ d, entry = slotEntry d mover ∧ deployment = some d ∧ target = .running := by
  cases h with
  | @taken d hdeployment hstarts hfrom =>
    rw [Table.get?_insert]
    split_ifs with heq
    · exact ⟨fun _ => ⟨d, heq.symm, hdeployment, hstarts⟩, fun _ => rfl⟩
    · rw [hbefore]
      constructor
      · rintro ⟨_, _, _, hrunning⟩
        exact absurd hrunning hfrom
      · rintro ⟨d', rfl, hdeployment', _⟩
        rw [hdeployment] at hdeployment'
        exact absurd (by rw [Option.some.inj hdeployment']) heq
  | @given d hdeployment hfrom hstops =>
    rw [Table.get?_erase]
    split_ifs with heq
    · constructor
      · intro h
        cases h
      · rintro ⟨_, _, _, hrunning⟩
        exact absurd hrunning hstops
    · rw [hbefore]
      constructor
      · rintro ⟨d', rfl, hdeployment', _⟩
        rw [hdeployment] at hdeployment'
        exact absurd (by rw [Option.some.inj hdeployment']) heq
      · rintro ⟨_, _, _, hrunning⟩
        exact absurd hrunning hstops
  | unchanged hsame =>
    rw [hbefore]
    refine exists_congr fun d => and_congr_right fun _ => and_congr_right fun hdeployment => ?_
    exact (hsame d hdeployment).symm

/-- Slots stay exact when a run is stored together with the move of its slot. `from?` is the kind
of the run stored under its id before, if there was one. -/
theorem SlotsExact.put (h : SlotsExact s) {r : Run} {from? : Option StateKind}
    (hbefore : ∀ d, (∃ r', s.getRun r.id = some r' ∧ r'.deployment = some d ∧ r'.kind = .running) ↔
      r.deployment = some d ∧ from? = some .running)
    (hslot : SlotMove s r.deployment r.id from? r.kind s') : SlotsExact (s'.putRun r) := by
  intro entry id
  rw [getRun_putRun, hslot.getRun_eq]
  by_cases hid : r.id = id
  · subst hid
    refine Iff.trans (hslot.get?_slots_self (fun entry => ?_) entry) ?_
    · rw [h entry r.id]
      simp only [exists_and_left, ← hbefore]
    · simp
  · rw [if_neg hid, ← h entry id]
    exact hslot.get?_slots_of_ne h hid entry

theorem Change.slotsExact (h : SlotsExact s) (hchange : Change plans s s') : SlotsExact s' := by
  cases hchange with
  | deployment d => exact h
  | @plan deployment new p _ hnew _ =>
    intro entry id
    rw [getRun_storePlanned]
    refine Iff.trans (h entry id) ?_
    split_ifs with heq
    · subst heq
      rw [hnew]
      constructor
      · rintro ⟨_, _, _, hget, _⟩
        cases hget
      · rintro ⟨_, _, _, hget, _, hkind⟩
        cases hget
        cases hkind
    · rfl
  | @birth r s' hborn hnew hslot =>
    refine h.put (fun d => ?_) hslot
    rw [hnew]
    simp
  | @move r next s' hstored hmove hslot =>
    refine h.put (fun d => ?_) hslot
    change (∃ r', s.getRun r.id = some r' ∧ _) ↔ _
    rw [hstored]
    simp [Run.enter]

theorem Reachable.slotsExact (h : Reachable s) : SlotsExact s :=
  h.changes.invariant (fun _ hexact hchange => hchange.slotsExact hexact) .empty .empty

/-! ### How many runs are running -/

/-- The running runs of a deployment. -/
def running (s : Store) (deployment : String) : List Run :=
  s.runs.values.filter fun r => r.deployment = some deployment ∧ r.kind = .running

theorem mem_running_iff (hs : s.WellFormed) {d : String} {r : Run} :
    r ∈ s.running d ↔ s.getRun r.id = some r ∧ r.deployment = some d ∧ r.kind = .running := by
  rw [running, List.mem_filter, hs.mem_values_iff, decide_eq_true_eq]

theorem nodup_running (hs : s.WellFormed) (d : String) : ((s.running d).map (·.id)).Nodup := by
  have hsub : ((s.running d).map (·.id)).Sublist (s.runs.values.map (·.id)) :=
    List.filter_sublist.map _
  exact hsub.nodup hs.nodup_ids

theorem length_running_le (hs : s.WellFormed) (hexact : SlotsExact s) (d : String) :
    (s.running d).length ≤ s.occupiedSlots d := by
  have hentries : ((s.running d).map fun r => (slotEntry d r.id, r.id)) ⊆
      s.slots.range (d ++ "|") (d ++ "\x7d") := by
    intro e hmem
    obtain ⟨r, hr, rfl⟩ := List.mem_map.mp hmem
    obtain ⟨hget, hdeployment, hkind⟩ := (mem_running_iff hs).mp hr
    have hslot := (hexact (slotEntry d r.id) r.id).mpr ⟨d, r, rfl, hget, hdeployment, hkind⟩
    rw [Table.range, List.mem_filter]
    refine ⟨(Table.mem_entries_iff hs.slots_ordered).mpr hslot, ?_⟩
    simp only [Bool.and_eq_true, Bool.not_eq_true', decide_eq_false_iff_not, decide_eq_true_eq]
    exact slotEntry_mem_range d r.id
  have hnodup : ((s.running d).map fun r => (slotEntry d r.id, r.id)).Nodup := by
    refine List.Nodup.of_map Prod.snd ?_
    rw [List.map_map]
    exact nodup_running hs d
  have hle := (List.Nodup.subperm hnodup hentries).length_le
  rwa [List.length_map] at hle

theorem length_running_putRun_le (hs : s.WellFormed) (hexact : SlotsExact s) {r : Run}
    {from? : Option StateKind} {d : String} {limit : UInt32}
    (hslot : SlotMove s r.deployment r.id from? r.kind s') (hs' : (s'.putRun r).WellFormed)
    (hfrom : from? ≠ some .running) (hkind : r.kind = .running)
    (hdeployment : r.deployment = some d) (hlimit : s.limitOf d = some limit) :
    ((s'.putRun r).running d).length ≤ limit.toNat := by
  have hfree : s.occupiedSlots d < limit.toNat := by
    cases hslot with
    | @taken d' hdeployment' _ _ hfree =>
      rw [hdeployment] at hdeployment'
      cases hdeployment'
      exact hfree limit hlimit
    | given _ hbefore _ => exact absurd hbefore hfrom
    | unchanged hsame => exact absurd ((hsame d hdeployment).mp hkind) hfrom
  have hids : ((s'.putRun r).running d).map (·.id) ⊆ r.id :: (s.running d).map (·.id) := by
    intro id hmem
    obtain ⟨r', hr', rfl⟩ := List.mem_map.mp hmem
    obtain ⟨hget, hholds⟩ := (mem_running_iff hs').mp hr'
    rw [getRun_putRun, hslot.getRun_eq] at hget
    split_ifs at hget with heq
    · rw [heq]
      exact List.mem_cons_self
    · exact List.mem_cons_of_mem _ (List.mem_map_of_mem ((mem_running_iff hs).mpr ⟨hget, hholds⟩))
  have hle := (List.Nodup.subperm (nodup_running hs' d) hids).length_le
  have hcounted := length_running_le hs hexact d
  rw [List.length_cons, List.length_map, List.length_map] at hle
  omega

/-- A run of a deployment is running in the second store that was not running in the first. -/
def StartsRunning (s s' : Store) (deployment : String) : Prop :=
  ∃ id r, s'.getRun id = some r ∧ r.deployment = some deployment ∧ r.kind = .running ∧
    ∀ before, s.getRun id = some before → before.kind ≠ .running

theorem length_running_perform_le (h : Reachable s) {op : Operation} (hfresh : op.Fresh s)
    {d : String} (hstarts : StartsRunning s (s.perform op).1 d) {limit : UInt32}
    (hlimit : s.limitOf d = some limit) : ((s.perform op).1.running d).length ≤ limit.toNat := by
  have hs := h.wellFormed
  have hs' := (h.perform hfresh).wellFormed
  have heffect := effect_perform hs hfresh
  generalize s.perform op = result at hstarts hs' heffect ⊢
  obtain ⟨id, r, hget, hdeployment, hkind, hbefore⟩ := hstarts
  have hnot : s.getRun id ≠ some r := fun h => hbefore r h hkind
  cases heffect with
  | deployment => exact absurd hget hnot
  | inserted =>
    rcases getRun_insertRuns hget with h | ⟨p, _, rfl⟩
    · exact absurd h hnot
    · cases hkind
  | known => exact absurd hget hnot
  | born hborn hnew hslot =>
    rw [getRun_putRun, hslot.getRun_eq] at hget
    split_ifs at hget
    · cases hget
      exact length_running_putRun_le hs h.slotsExact hslot hs' (by simp) hkind hdeployment
        hlimit
    · exact absurd hget hnot
  | @moved _ next before s₁ hstored _ _ hslot =>
    rw [getRun_putRun, hslot.getRun_eq] at hget
    split_ifs at hget with hid
    · cases hget
      have hfrom : some before.kind ≠ some .running := fun h =>
        hbefore before (hid ▸ hstored) (Option.some.inj h)
      exact length_running_putRun_le hs h.slotsExact hslot hs' hfrom hkind hdeployment hlimit
    · exact absurd hget hnot
  | rejected => exact absurd hget hnot

/-- **Slots are exact, and limits are kept.** In every store that operations lead to, a slot is
held under a deployment and a run exactly if the run is stored, belongs to the deployment and is
running. So an operation that lets a run of a stored deployment with a limit start running leaves
at most so many running runs of it. -/
theorem slots_of_running_runs (h : Reachable s) :
    (∀ d id, s.slots.contains (slotEntry d id) = true ↔
      ∃ r, s.getRun id = some r ∧ r.deployment = some d ∧ r.kind = .running) ∧
    ∀ op, op.Fresh s → ∀ d, StartsRunning s (s.perform op).1 d →
      ∀ deployment limit, s.getDeployment d = some deployment →
        deployment.concurrencyLimit = some limit →
        ((s.perform op).1.running d).length ≤ limit.toNat := by
  refine ⟨fun d id => ?_, fun op hfresh d hstarts deployment limit hstored hlimit => ?_⟩
  · rw [Table.contains_eq, Option.isSome_iff_exists]
    constructor
    · rintro ⟨holder, hslot⟩
      obtain ⟨d', r, hentry, hholds⟩ := (h.slotsExact _ holder).mp hslot
      obtain ⟨rfl, rfl⟩ := slotEntry_injective hentry
      exact ⟨r, hholds⟩
    · rintro ⟨r, hholds⟩
      exact ⟨id, (h.slotsExact _ id).mpr ⟨d, r, rfl, hholds⟩⟩
  · refine length_running_perform_le h hfresh hstarts ?_
    rw [limitOf, hstored, Option.bind_some, hlimit]

/-- A deployment that lets one run at a time be running. -/
def oneAtATime : Deployment where
  id := "etl"
  name := "etl"
  concurrencyLimit := some 1
  createdAt := .epoch
  updatedAt := .epoch

/-- A store with that deployment and two pending runs of it. -/
def twoPending : Store :=
  let s := (empty.perform (.putDeployment oneAtATime)).1
  let s := (s.perform (.create { id := some ⟨1⟩, deployment := some "etl" } .epoch ⟨1⟩)).1
  (s.perform (.create { id := some ⟨2⟩, deployment := some "etl" } .epoch ⟨2⟩)).1

theorem reachable_twoPending : Reachable twoPending := by
  refine Reachable.perform (.perform (.perform .empty ?_) ?_) ?_
  · exact trivial
  · intro h
    cases h
  · intro h
    cases h

/-- The first of the two is to start running. -/
def firstStart : Operation :=
  .commit ⟨1⟩ .any { kind := .running, time := .epoch }

theorem slots_of_first_start :
    Reachable twoPending ∧ firstStart.Fresh twoPending ∧
    StartsRunning twoPending (twoPending.perform firstStart).1 "etl" ∧
    ((twoPending.perform firstStart).1.running "etl").length ≤ (1 : UInt32).toNat := by
  have hfresh : firstStart.Fresh twoPending := trivial
  have hstarts : StartsRunning twoPending (twoPending.perform firstStart).1 "etl" := by
    refine ⟨⟨1⟩, _, rfl, rfl, rfl, fun before hbefore => ?_⟩
    cases hbefore
    decide
  have hkept := (slots_of_running_runs reachable_twoPending).2 firstStart hfresh "etl" hstarts
  exact ⟨reachable_twoPending, hfresh, hstarts, hkept oneAtATime 1 rfl rfl⟩

end RunScheduler.Store
