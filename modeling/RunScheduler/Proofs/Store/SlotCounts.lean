import RunScheduler.Proofs.Store.Slots

/-!
# The slots counted for a deployment

The slots counted for a deployment are the entries that begin with its id and a bar
(`mem_range_iff`). Ids are any texts, so these are the slots of its own running runs and those of
every deployment whose id goes on behind such a bar: the runs of `etl|nightly` are counted for
`etl` too (`countsFor`, `occupiedSlots_eq_length_counted`).

So the number counted is that of the deployment's own running runs exactly if no deployment of
that form has a running run, and a run is turned away for want of a slot only when the limit is
reached by all the runs counted together (`slots_counted_behind_bar`).
-/

namespace RunScheduler.Store

variable {s : Store}

/-! ### Entries in the counted range -/

/-- The character after the bar is the closing brace, so nothing lies between texts that begin
with a bar and those that begin with the brace. -/
theorem bar_prefix_iff (front l : List Char) :
    (¬ l < front ++ ['|'] ∧ l < front ++ ['\x7d']) ↔ front ++ ['|'] <+: l := by
  induction front generalizing l with
  | nil =>
    cases l with
    | nil => simp
    | cons c l =>
      have hnext : ¬ c < '|' ∧ c < '\x7d' ↔ c = '|' := by
        simp only [Char.lt_def, UInt32.lt_iff_toNat_lt, Char.ext_iff, ← UInt32.toNat_inj]
        have hbar : '|'.val.toNat = 124 := rfl
        have hbrace : '\x7d'.val.toNat = 125 := rfl
        omega
      simp only [List.nil_append, List.cons_lt_cons_iff, List.not_lt_nil, and_false, or_false,
        List.cons_prefix_cons, List.nil_prefix, and_true]
      rw [hnext]
      exact eq_comm
  | cons a front ih =>
    cases l with
    | nil => simp
    | cons c l =>
      simp only [List.cons_append, List.cons_lt_cons_iff, List.cons_prefix_cons]
      constructor
      · rintro ⟨hnot, hlt | ⟨rfl, hlt⟩⟩
        · exact absurd (Or.inl hlt) hnot
        · exact ⟨rfl, (ih l).mp ⟨fun h => hnot (Or.inr ⟨rfl, h⟩), hlt⟩⟩
      · rintro ⟨rfl, hprefix⟩
        obtain ⟨hnot, hlt⟩ := (ih l).mpr hprefix
        refine ⟨?_, Or.inr ⟨rfl, hlt⟩⟩
        rintro (h | ⟨-, h⟩)
        · exact lt_irrefl a h
        · exact hnot h

theorem mem_range_iff {t : Table String RunId} {d : String} {e : String × RunId} :
    e ∈ t.range (d ++ "|") (d ++ "\x7d") ↔
      e ∈ t.entries ∧ d.toList ++ ['|'] <+: e.1.toList := by
  rw [Table.range, List.mem_filter]
  refine and_congr_right fun _ => ?_
  rw [Bool.and_eq_true, Bool.not_eq_true', decide_eq_false_iff_not, decide_eq_true_eq,
    String.lt_iff, String.lt_iff, String.toList_append, String.toList_append]
  exact bar_prefix_iff d.toList e.1.toList

/-- Whether the running runs of a deployment are counted for another one: it is the same, or its
id begins with the other id and a bar. -/
def countsFor (d d' : String) : Bool :=
  d' = d || (d.toList ++ ['|']).isPrefixOf d'.toList

/-- An entry begins with an id and a bar if its own deployment's id is that one or goes on behind
the bar. A run's id has no bar in it. -/
theorem slotEntry_prefix_iff {d d' : String} {id : RunId} :
    d.toList ++ ['|'] <+: (slotEntry d' id).toList ↔ countsFor d d' = true := by
  have hentry : (slotEntry d' id).toList = d'.toList ++ '|' :: id.toText := by
    simp [slotEntry, RunId.toString]
  rw [hentry, countsFor, Bool.or_eq_true, decide_eq_true_eq, List.isPrefixOf_iff_prefix]
  constructor
  · intro hprefix
    by_cases hlength : (d.toList ++ ['|']).length ≤ d'.toList.length
    · right
      exact List.prefix_of_prefix_length_le hprefix (List.prefix_append _ _) hlength
    · left
      -- The other id with its bar is the shorter one, so the bar behind it is the last in both.
      have hother : d'.toList ++ ['|'] <+: d'.toList ++ '|' :: id.toText := by simp
      obtain ⟨x, hx⟩ := List.prefix_of_prefix_length_le hother hprefix (by simp at hlength ⊢; omega)
      obtain ⟨y, hy⟩ := hprefix
      rw [← hx] at hy
      have hid : x ++ y = id.toText := by simpa using hy
      have hbar : '|' ∉ x := fun hmem =>
        RunId.bar_notMem_toText id (hid ▸ List.mem_append_left y hmem)
      have hsame := (Text.append_cons_inj hbar List.not_mem_nil (by simpa using hx)).1
      exact String.toList_inj.mp hsame
  · rintro (rfl | hprefix)
    · exact ⟨id.toText, by simp⟩
    · exact hprefix.trans (List.prefix_append _ _)

/-! ### Counting -/

/-- The running runs that are counted for a deployment. -/
def counted (s : Store) (deployment : String) : List Run :=
  s.runs.values.filter fun r => r.deployment.any (countsFor deployment) ∧ r.kind = .running

theorem mem_counted_iff (hs : s.WellFormed) {d : String} {r : Run} :
    r ∈ s.counted d ↔ s.getRun r.id = some r ∧
      ∃ d', r.deployment = some d' ∧ countsFor d d' = true ∧ r.kind = .running := by
  rw [counted, List.mem_filter, hs.mem_values_iff, decide_eq_true_eq, Option.any_eq_true]
  refine and_congr_right fun _ => ?_
  constructor
  · rintro ⟨⟨d', hd, hcounts⟩, hkind⟩
    exact ⟨d', hd, hcounts, hkind⟩
  · rintro ⟨d', hd, hcounts, hkind⟩
    exact ⟨⟨d', hd, hcounts⟩, hkind⟩

/-- The entry of a running run of a deployment. -/
def heldEntry (r : Run) : String × RunId :=
  (slotEntry (r.deployment.getD "") r.id, r.id)

theorem occupiedSlots_eq_length_counted (hs : s.WellFormed) (hexact : SlotsExact s) (d : String) :
    s.occupiedSlots d = (s.counted d).length := by
  have hids : ((s.counted d).map (·.id)).Nodup :=
    (List.filter_sublist.map _).nodup hs.nodup_ids
  have hheld : ((s.counted d).map heldEntry).Nodup := by
    refine List.Nodup.of_map Prod.snd ?_
    rw [List.map_map]
    exact hids
  have hrange : (s.slots.range (d ++ "|") (d ++ "\x7d")).Nodup :=
    (List.Nodup.of_map _ hs.slots_ordered.nodup_keys).filter _
  have hperm : ((s.counted d).map heldEntry).Perm (s.slots.range (d ++ "|") (d ++ "\x7d")) := by
    refine (List.perm_ext_iff_of_nodup hheld hrange).mpr ?_
    rintro ⟨entry, id⟩
    rw [mem_range_iff, Table.mem_entries_iff hs.slots_ordered, hexact entry id, List.mem_map]
    constructor
    · rintro ⟨r, hr, heq⟩
      obtain ⟨hget, d', hdeployment, hcounts, hkind⟩ := (mem_counted_iff hs).mp hr
      simp only [heldEntry, hdeployment, Option.getD_some, Prod.mk.injEq] at heq
      obtain ⟨rfl, rfl⟩ := heq
      exact ⟨⟨d', r, rfl, hget, hdeployment, hkind⟩, slotEntry_prefix_iff.mpr hcounts⟩
    · rintro ⟨⟨d', r, rfl, hget, hdeployment, hkind⟩, hprefix⟩
      have hid := hs.id_eq hget
      subst hid
      refine ⟨r, (mem_counted_iff hs).mpr ?_, by simp [heldEntry, hdeployment]⟩
      exact ⟨hget, d', hdeployment, slotEntry_prefix_iff.mp hprefix, hkind⟩
  have hlength := hperm.length_eq
  rw [List.length_map] at hlength
  exact hlength.symm

theorem running_eq_filter_counted (s : Store) (d : String) :
    s.running d = (s.counted d).filter fun r => r.deployment = some d := by
  rw [running, counted, List.filter_filter]
  refine List.filter_congr fun r _ => ?_
  have hself : countsFor d d = true := by simp [countsFor]
  by_cases hd : r.deployment = some d
  · simp [hd, hself]
  · simp [hd]

theorem length_counted_eq_iff (hs : s.WellFormed) (d : String) :
    (s.counted d).length = (s.running d).length ↔
      ∀ r d', s.getRun r.id = some r → r.kind = .running → r.deployment = some d' →
        countsFor d d' = true → d' = d := by
  rw [running_eq_filter_counted, eq_comm, List.length_filter_eq_length_iff]
  constructor
  · intro hown r d' hget hkind hdeployment hcounts
    have h := hown r ((mem_counted_iff hs).mpr ⟨hget, d', hdeployment, hcounts, hkind⟩)
    rw [decide_eq_true_eq, hdeployment] at h
    exact Option.some.inj h
  · intro hown r hr
    obtain ⟨hget, d', hdeployment, hcounts, hkind⟩ := (mem_counted_iff hs).mp hr
    rw [decide_eq_true_eq, hdeployment, hown r d' hget hkind hdeployment hcounts]

/-! ### Runs that are turned away -/

theorem full_of_moveSlot {deployment : Option String} {id : RunId} {from? : Option StateKind}
    {target : StateKind} {e : StoreError} (h : s.moveSlot deployment id from? target = .error e) :
    ∃ d limit, e = .concurrencyLimit d limit ∧ s.limitOf d = some limit ∧
      limit.toNat ≤ s.occupiedSlots d := by
  rw [moveSlot.eq_def] at h
  cases deployment with
  | none => cases h
  | some d =>
    dsimp only at h
    split_ifs at h with htake hgive
    cases hlimit : s.limitOf d with
    | none => simp [hlimit] at h
    | some limit =>
      simp only [hlimit] at h
      split_ifs at h with hfull
      cases h
      exact ⟨d, limit, rfl, hlimit, hfull⟩

theorem full_of_create {request : RunRequest} {now : Instant} {freshId : RunId} {d : String}
    {limit : UInt32} (h : s.create request now freshId = .error (.concurrencyLimit d limit)) :
    s.limitOf d = some limit ∧ limit.toNat ≤ s.occupiedSlots d := by
  rw [create.eq_def] at h
  cases hknown : request.id.bind s.getRun with
  | some existing => simp [hknown] at h
  | none =>
    simp only [hknown] at h
    cases hrun : request.toRun now freshId with
    | error e =>
      simp only [hrun, Except.error.injEq] at h
      rw [h, RunRequest.toRun] at hrun
      split_ifs at hrun
      cases hrun
    | ok run =>
      simp only [hrun] at h
      cases hslot : s.moveSlot run.deployment run.id none run.kind with
      | ok => simp [hslot] at h
      | error e =>
        simp only [hslot, Except.error.injEq] at h
        obtain ⟨d', limit', heq, hfull⟩ := full_of_moveSlot hslot
        rw [h] at heq
        cases heq
        exact hfull

theorem full_of_commit {id : RunId} {expected : Expected} {next : State} {d : String}
    {limit : UInt32} (h : s.commit id expected next = .error (.concurrencyLimit d limit)) :
    s.limitOf d = some limit ∧ limit.toNat ≤ s.occupiedSlots d := by
  rw [commit.eq_def] at h
  cases hget : s.getRun id with
  | none => simp [hget] at h
  | some run =>
    simp only [hget] at h
    cases hmove : run.move expected next with
    | error e =>
      simp only [hmove, Except.error.injEq] at h
      rw [h, Run.move] at hmove
      split_ifs at hmove
      cases hmove
    | ok moved =>
      simp only [hmove] at h
      cases hslot : s.moveSlot moved.deployment id (some run.kind) moved.kind with
      | ok => simp [hslot] at h
      | error e =>
        simp only [hslot, Except.error.injEq] at h
        obtain ⟨d', limit', heq, hfull⟩ := full_of_moveSlot hslot
        rw [h] at heq
        cases heq
        exact hfull

theorem full_of_rejected {op : Operation} {d : String} {limit : UInt32}
    (h : (s.perform op).2 = .rejected (.concurrencyLimit d limit)) :
    s.limitOf d = some limit ∧ limit.toNat ≤ s.occupiedSlots d := by
  cases op with
  | putDeployment => cases h
  | insertRuns => cases h
  | create request now freshId =>
    rw [perform] at h
    cases hcreate : s.create request now freshId with
    | ok result => simp [hcreate] at h
    | error e =>
      simp only [hcreate, Outcome.rejected.injEq] at h
      exact full_of_create (h ▸ hcreate)
  | commit id expected next =>
    rw [perform] at h
    cases hcommit : s.commit id expected next with
    | ok result => simp [hcommit] at h
    | error e =>
      simp only [hcommit, Outcome.rejected.injEq] at h
      exact full_of_commit (h ▸ hcommit)

/-- **Slots are counted over all ids behind the bar.** In every store that operations lead to,
the slots counted for a deployment are its own running runs and those of the deployments whose
ids begin with its id and a bar. So they are its own alone exactly if none of those others has a
running run, and an operation is rejected for want of a slot only if the runs counted reach the
limit of the stored deployment. -/
theorem slots_counted_behind_bar (h : Reachable s) (d : String) :
    s.occupiedSlots d = (s.counted d).length ∧
    (s.occupiedSlots d = (s.running d).length ↔
      ∀ r d', s.getRun r.id = some r → r.kind = .running → r.deployment = some d' →
        countsFor d d' = true → d' = d) ∧
    ∀ op limit, (s.perform op).2 = .rejected (.concurrencyLimit d limit) →
      s.limitOf d = some limit ∧ limit.toNat ≤ (s.counted d).length := by
  have hcount := occupiedSlots_eq_length_counted h.wellFormed h.slotsExact d
  refine ⟨hcount, ?_, fun op limit hrejected => ?_⟩
  · rw [hcount]
    exact length_counted_eq_iff h.wellFormed d
  · rw [← hcount]
    exact full_of_rejected hrejected

/-- A run that is running from the start. -/
def startRunning (id : RunId) (deployment : String) : Operation :=
  .create { id := some id, deployment := some deployment,
            state := some { kind := .running, time := .epoch } } .epoch id

/-- A store with a deployment that lets one run at a time be running, and a running run of
another deployment whose id goes on behind the bar. -/
def nestedRunning : Store :=
  let s := (empty.perform (.putDeployment oneAtATime)).1
  (s.perform (startRunning ⟨1⟩ "etl|nightly")).1

theorem reachable_nestedRunning : Reachable nestedRunning := by
  refine Reachable.perform (.perform .empty ?_) ?_
  · exact trivial
  · intro h
    cases h

theorem slots_counted_of_nested_ids :
    Reachable nestedRunning ∧
    nestedRunning.occupiedSlots "etl" = 1 ∧
    nestedRunning.occupiedSlots "etl|nightly" = (nestedRunning.running "etl|nightly").length := by
  have hs := reachable_nestedRunning
  refine ⟨hs, ?_, ?_⟩
  · rw [(slots_counted_behind_bar hs "etl").1]
    decide
  · refine (slots_counted_behind_bar hs "etl|nightly").2.1.mpr fun r d' hget _ hdeployment => ?_
    have hone : ∀ r ∈ nestedRunning.runs.values, r.deployment = some "etl|nightly" := by decide
    rw [hone r (hs.wellFormed.mem_values_iff.mpr hget)] at hdeployment
    exact fun _ => (Option.some.inj hdeployment).symm

/-- A run of a deployment none of whose runs is running may be turned away: the slot counted for
it is another deployment's. -/
theorem not_slots_counted_alone :
    ¬ ∀ s, Reachable s → ∀ d,
      s.occupiedSlots d = (s.running d).length ∧
      ∀ op limit, (s.perform op).2 = .rejected (.concurrencyLimit d limit) →
        limit.toNat ≤ (s.running d).length := by
  intro h
  obtain ⟨hcount, hrejected⟩ := h nestedRunning reachable_nestedRunning "etl"
  have hnone : (nestedRunning.running "etl").length = 0 := by decide
  have hfull : (nestedRunning.perform (startRunning ⟨2⟩ "etl")).2 =
      .rejected (.concurrencyLimit "etl" 1) := by rfl
  have hle := hrejected _ _ hfull
  rw [hnone] at hle
  exact absurd hle (by decide)

end RunScheduler.Store
