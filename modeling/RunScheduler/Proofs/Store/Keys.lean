import RunScheduler.Proofs.Instant
import RunScheduler.Proofs.Store.Change

/-!
# Keys of scheduled runs

The entry of a key determines the deployment and the instant that the key names, whatever
characters are in the deployment's id (`keyEntry_runKey_injective`).

As long as runs are planned with the keys of their instants, the table of keys holds the entries
of the stored runs with keys and no others (`KeysExact`, `Change.keysExact`). So no deployment has
two runs with keys at one instant (`KeysExact.eq_of_isSome`), and a key is found exactly if its run
is stored (`KeysExact.findExisting_eq`).
-/

namespace RunScheduler

/-- The run has the key that a deployment's run at its instant has. -/
def PlannedRun.KeyedFor (deployment : String) (p : PlannedRun) : Prop :=
  p.key = runKey deployment p.scheduledTime

namespace Store

variable {s s' : Store}

/-! ### Entries -/

theorem keyEntry_runKey_injective {d d' : String} {t t' : Instant}
    (h : keyEntry d (runKey d t) = keyEntry d' (runKey d' t')) : d = d' ∧ t = t' := by
  have hsplit (d : String) (t : Instant) : (keyEntry d (runKey d t)).toList =
      (d.toList ++ ("|scheduled ".toList ++ d.toList)) ++ ' ' :: t.toOffsetString.toList := by
    simp [keyEntry, runKey, String.toList_append]
  have htext := congrArg String.toList h
  rw [hsplit, hsplit] at htext
  -- No blank is in the text of an instant, so the last one is the one in front of it.
  obtain ⟨hfront, htime⟩ := Text.append_cons_inj (Instant.blank_notMem_toOffsetString t)
    (Instant.blank_notMem_toOffsetString t') htext
  -- The id stands twice in what is left, so its length is determined.
  have hlength : d.toList.length = d'.toList.length := by
    have := congrArg List.length hfront
    simp only [List.length_append] at this
    omega
  exact ⟨String.toList_inj.mp (List.append_inj hfront hlength).1,
    Instant.toOffsetString_injective (String.toList_inj.mp htime)⟩

theorem runKey_injective (d : String) : Function.Injective (runKey d) := fun _ _ h =>
  (keyEntry_runKey_injective (congrArg (keyEntry d) h)).2

/-! ### Keys and stored runs -/

/-- The runs with keys of a deployment. -/
def keyedRuns (s : Store) (deployment : String) : List Run :=
  s.runs.values.filter fun r => r.deployment = some deployment ∧ r.key.isSome

/-- The instants that a deployment has runs with keys for. -/
def keyedTimes (s : Store) (deployment : String) : List Instant :=
  (s.keyedRuns deployment).map (·.scheduledTime)

/-- The deployment, the instant and the key of a stored run that has a key. -/
def keyOf (s : Store) (id : RunId) : Option (Option String × Instant × String) :=
  (s.getRun id).bind fun r => r.key.map fun key => (r.deployment, r.scheduledTime, key)

theorem keyOf_eq_some_iff {id : RunId} {deployment : Option String} {t : Instant} {key : String} :
    s.keyOf id = some (deployment, t, key) ↔
      ∃ r, s.getRun id = some r ∧ r.key = some key ∧ r.deployment = deployment ∧
        r.scheduledTime = t := by
  simp only [keyOf, Option.bind_eq_some_iff, Option.map_eq_some_iff, Prod.mk.injEq]
  constructor
  · rintro ⟨r, hget, key, hkey, hdeployment, htime, rfl⟩
    exact ⟨r, hget, hkey, hdeployment, htime⟩
  · rintro ⟨r, hget, hkey, hdeployment, htime⟩
    exact ⟨r, hget, key, hkey, hdeployment, htime, rfl⟩

/-- Keys are those of the instants of their runs, and each has its entry. -/
structure KeysExact (s : Store) : Prop where
  key_eq : ∀ {id deployment t key}, s.keyOf id = some (deployment, t, key) →
    ∃ d, deployment = some d ∧ key = runKey d t
  entry_iff : ∀ entry id, s.runKeys.get? entry = some id ↔
    ∃ d t key, entry = keyEntry d key ∧ s.keyOf id = some (some d, t, key)

theorem KeysExact.empty : KeysExact empty where
  key_eq h := nomatch h
  entry_iff entry id := by
    constructor
    · intro h
      cases h
    · rintro ⟨_, _, _, _, h⟩
      cases h

theorem KeysExact.congr (h : KeysExact s) (hentries : s'.runKeys = s.runKeys)
    (hkeys : ∀ id, s'.keyOf id = s.keyOf id) : KeysExact s' where
  key_eq hkey := h.key_eq ((hkeys _).symm.trans hkey)
  entry_iff entry id := by
    rw [hentries, hkeys]
    exact h.entry_iff entry id

theorem KeysExact.storePlanned (h : KeysExact s) {deployment : String} {id : RunId}
    {p : PlannedRun} (hplan : p.KeyedFor deployment) (hnew : s.getRun id = none)
    (hkey : s.runKeys.contains (keyEntry deployment p.key) = false) :
    KeysExact (s.storePlanned deployment id p) := by
  have hkeys (other : RunId) : (s.storePlanned deployment id p).keyOf other =
      if id = other then some (some deployment, p.scheduledTime, p.key) else s.keyOf other := by
    rw [keyOf, getRun_storePlanned]
    split_ifs <;> rfl
  have hold : s.keyOf id = none := by
    rw [keyOf, hnew, Option.bind_none]
  refine ⟨fun {other d t key} hother => ?_, fun entry other => ?_⟩
  · rw [hkeys] at hother
    split_ifs at hother
    · cases hother
      exact ⟨deployment, rfl, hplan⟩
    · exact h.key_eq hother
  · have hentry : (s.storePlanned deployment id p).runKeys.get? entry =
        if keyEntry deployment p.key = entry then some id else s.runKeys.get? entry :=
      Table.get?_insert _ _ _ _
    rw [hentry, hkeys]
    split_ifs with hsame hid hid
    · exact ⟨fun _ => ⟨deployment, p.scheduledTime, p.key, hsame.symm, rfl⟩, fun _ => by rw [hid]⟩
    · subst hsame
      constructor
      · intro heq
        exact absurd (Option.some.inj heq) hid
      · intro hother
        rw [Table.contains_eq, (h.entry_iff _ other).mpr hother] at hkey
        cases hkey
    · subst hid
      rw [h.entry_iff, hold]
      constructor
      · rintro ⟨_, _, _, _, hnone⟩
        cases hnone
      · rintro ⟨_, _, _, heq, hsome⟩
        cases hsome
        exact absurd heq.symm hsame
    · exact h.entry_iff entry other

theorem Change.keysExact (h : KeysExact s) (hchange : Change (fun d p => p.KeyedFor d) s s') :
    KeysExact s' := by
  cases hchange with
  | deployment d => exact h.congr rfl fun _ => rfl
  | plan hplan hnew hkey => exact h.storePlanned hplan hnew hkey
  | @birth r _ hborn hnew hslot =>
    refine h.congr hslot.runKeys_eq fun id => ?_
    rw [keyOf, keyOf, getRun_putRun, hslot.getRun_eq]
    split_ifs with hid
    · rw [← hid, hnew, Option.bind_some, hborn.key]
      rfl
    · rfl
  | @move r next _ hstored hmove hslot =>
    refine h.congr hslot.runKeys_eq fun id => ?_
    rw [keyOf, keyOf, getRun_putRun, hslot.getRun_eq]
    split_ifs with hid
    · have hid : r.id = id := hid
      rw [← hid, hstored]
      rfl
    · rfl

/-! ### What exact keys are good for -/

theorem KeysExact.eq_of_isSome (h : KeysExact s) {id id' : RunId} {r r' : Run}
    (hget : s.getRun id = some r) (hget' : s.getRun id' = some r') (hkey : r.key.isSome = true)
    (hkey' : r'.key.isSome = true) (hdeployment : r.deployment = r'.deployment)
    (htime : r.scheduledTime = r'.scheduledTime) : id = id' := by
  obtain ⟨key, hkey⟩ := Option.isSome_iff_exists.mp hkey
  obtain ⟨key', hkey'⟩ := Option.isSome_iff_exists.mp hkey'
  have hkey : s.keyOf id = some (r'.deployment, r'.scheduledTime, key) :=
    keyOf_eq_some_iff.mpr ⟨r, hget, hkey, hdeployment, htime⟩
  have hkey' : s.keyOf id' = some (r'.deployment, r'.scheduledTime, key') :=
    keyOf_eq_some_iff.mpr ⟨r', hget', hkey', rfl, rfl⟩
  obtain ⟨d, hd, rfl⟩ := h.key_eq hkey
  obtain ⟨d', hd', rfl⟩ := h.key_eq hkey'
  rw [hd] at hkey hkey' hd'
  cases hd'
  have hentry := (h.entry_iff _ id).mpr ⟨d, _, _, rfl, hkey⟩
  rw [(h.entry_iff _ id').mpr ⟨d, _, _, rfl, hkey'⟩] at hentry
  exact (Option.some.inj hentry).symm

theorem mem_keyedTimes_iff (hs : s.WellFormed) {d : String} {t : Instant} :
    t ∈ s.keyedTimes d ↔ ∃ id r, s.getRun id = some r ∧ r.deployment = some d ∧
      r.scheduledTime = t ∧ r.key.isSome = true := by
  simp only [keyedTimes, keyedRuns, List.mem_map, List.mem_filter, hs.mem_values_iff,
    decide_eq_true_eq]
  constructor
  · rintro ⟨r, ⟨hget, hdeployment, hkey⟩, htime⟩
    exact ⟨r.id, r, hget, hdeployment, htime, hkey⟩
  · rintro ⟨id, r, hget, hdeployment, htime, hkey⟩
    rw [← hs.id_eq hget] at hget
    exact ⟨r, ⟨hget, hdeployment, hkey⟩, htime⟩

theorem mem_keyedTimes_iff_keyOf (hs : s.WellFormed) {d : String} {t : Instant} :
    t ∈ s.keyedTimes d ↔ ∃ id key, s.keyOf id = some (some d, t, key) := by
  simp only [mem_keyedTimes_iff hs, keyOf_eq_some_iff, Option.isSome_iff_exists]
  constructor
  · rintro ⟨id, r, hget, hdeployment, htime, key, hkey⟩
    exact ⟨id, key, r, hget, hkey, hdeployment, htime⟩
  · rintro ⟨id, key, r, hget, hkey, hdeployment, htime⟩
    exact ⟨id, r, hget, hdeployment, htime, key, hkey⟩

theorem KeysExact.nodup_keyedTimes (h : KeysExact s) (hs : s.WellFormed) (d : String) :
    (s.keyedTimes d).Nodup := by
  have hids : ((s.keyedRuns d).map (·.id)).Nodup :=
    (List.filter_sublist.map _).nodup hs.nodup_ids
  refine List.Nodup.map_on (fun r hr r' hr' heq => ?_) (List.Nodup.of_map _ hids)
  simp only [keyedRuns, List.mem_filter, hs.mem_values_iff, decide_eq_true_eq] at hr hr'
  obtain ⟨hget, hdeployment, hkey⟩ := hr
  obtain ⟨hget', hdeployment', hkey'⟩ := hr'
  have hid := h.eq_of_isSome hget hget' hkey hkey' (hdeployment.trans hdeployment'.symm) heq
  rw [hid, hget'] at hget
  exact (Option.some.inj hget).symm

/-- An entry is there because of a run of the deployment and the instant that it is made of. -/
theorem KeysExact.contains_iff (h : KeysExact s) (hs : s.WellFormed) {d : String} {t : Instant} :
    s.runKeys.contains (keyEntry d (runKey d t)) = true ↔ t ∈ s.keyedTimes d := by
  rw [Table.contains_eq, Option.isSome_iff_exists, mem_keyedTimes_iff_keyOf hs]
  refine exists_congr fun id => ?_
  rw [h.entry_iff]
  constructor
  · rintro ⟨d', t', key, hentry, hkey⟩
    obtain ⟨_, heq, rfl⟩ := h.key_eq hkey
    cases heq
    obtain ⟨rfl, rfl⟩ := keyEntry_runKey_injective hentry
    exact ⟨_, hkey⟩
  · rintro ⟨key, hkey⟩
    obtain ⟨_, heq, rfl⟩ := h.key_eq hkey
    cases heq
    exact ⟨d, t, _, rfl, hkey⟩

theorem KeysExact.contains_of_getRun (h : KeysExact s) (h' : KeysExact s')
    (hruns : ∀ {id r}, s.getRun id = some r → s'.getRun id = some r) {entry : String}
    (hentry : s.runKeys.contains entry = true) : s'.runKeys.contains entry = true := by
  rw [Table.contains_eq, Option.isSome_iff_exists] at hentry ⊢
  obtain ⟨id, hid⟩ := hentry
  obtain ⟨d, t, key, rfl, hkey⟩ := (h.entry_iff _ id).mp hid
  obtain ⟨r, hget, hrun⟩ := keyOf_eq_some_iff.mp hkey
  have hkept := keyOf_eq_some_iff.mpr ⟨r, hruns hget, hrun⟩
  exact ⟨id, (h'.entry_iff _ id).mpr ⟨d, t, key, rfl, hkept⟩⟩

theorem KeysExact.findExisting_eq (h : KeysExact s) (hs : s.WellFormed) (d : String)
    (times : List Instant) :
    s.findExisting d (times.map (runKey d)) =
      (times.filter fun t => t ∈ s.keyedTimes d).map (runKey d) := by
  rw [findExisting, List.filter_map]
  congr 1
  refine List.filter_congr fun t _ => ?_
  rw [Bool.eq_iff_iff, Function.comp_apply, h.contains_iff hs, decide_eq_true_eq]

end Store

end RunScheduler
