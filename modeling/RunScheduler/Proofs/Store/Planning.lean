import Mathlib.Data.Finset.Card
import RunScheduler.Proofs.Store.Operation

/-!
# Planned runs that are added to a store

`Store.Adds` says that planned runs of a deployment are stored one after another, each under an id
and with a key that were not in use. The rows of the store are then those it had, and one run and
one key for each of the planned runs (`Adds.rows`). Planned runs with different keys that the
deployment does not have are all added when they are handed in (`adds_insertRuns`), under ids that
there are enough of as long as fewer than 2¹²⁸ runs are stored (`exists_unused`).
-/

namespace RunScheduler

namespace Store

/-- Planned runs of a deployment are stored, each under an id and with a key that are not in use. -/
inductive Adds (deployment : String) : Store → List (RunId × PlannedRun) → Store → Prop
  | nil (s : Store) : Adds deployment s [] s
  | cons {s s' : Store} {id : RunId} {p : PlannedRun} {given : List (RunId × PlannedRun)}
      (hid : s.getRun id = none)
      (hkey : s.runKeys.contains (keyEntry deployment p.key) = false)
      (h : Adds deployment (s.storePlanned deployment id p) given s') :
      Adds deployment s ((id, p) :: given) s'

/-- Compared with another store, a store has one more run and one more key for each of some planned
runs, and is the same otherwise. -/
structure AddsRows (deployment : String) (s : Store) (given : List (RunId × PlannedRun))
    (s' : Store) : Prop where
  nodup_ids : (given.map (·.1)).Nodup
  unused : ∀ e ∈ given, s.getRun e.1 = none
  run_iff : ∀ id r, s'.getRun id = some r ↔
    s.getRun id = some r ∨ ∃ p, (id, p) ∈ given ∧ r = p.toRun deployment id
  key_iff : ∀ entry id, s'.runKeys.get? entry = some id ↔
    s.runKeys.get? entry = some id ∨ ∃ p, (id, p) ∈ given ∧ keyEntry deployment p.key = entry
  length_eq : s'.runs.entries.length = s.runs.entries.length + given.length
  deployments_eq : s'.deployments = s.deployments
  slots_eq : s'.slots = s.slots

variable {deployment : String} {s s₁ s' : Store} {given given' : List (RunId × PlannedRun)}

theorem Adds.append (h : Adds deployment s given s₁) (h' : Adds deployment s₁ given' s') :
    Adds deployment s (given ++ given') s' := by
  induction h with
  | nil => exact h'
  | cons hid hkey _ ih => exact .cons hid hkey (ih h')

/-! ### Rows -/

theorem AddsRows.nil (s : Store) : AddsRows deployment s [] s where
  nodup_ids := List.nodup_nil
  unused e he := nomatch he
  run_iff id r := by simp
  key_iff entry id := by simp
  length_eq := rfl
  deployments_eq := rfl
  slots_eq := rfl

theorem AddsRows.cons {id : RunId} {p : PlannedRun} (hid : s.getRun id = none)
    (hkey : s.runKeys.contains (keyEntry deployment p.key) = false)
    (h : AddsRows deployment (s.storePlanned deployment id p) given s') :
    AddsRows deployment s ((id, p) :: given) s' where
  nodup_ids := by
    refine List.nodup_cons.mpr ⟨fun hmem => ?_, h.nodup_ids⟩
    obtain ⟨e, he, rfl⟩ := List.mem_map.mp hmem
    have hunused := h.unused e he
    rw [getRun_storePlanned, if_pos rfl] at hunused
    cases hunused
  unused := by
    refine List.forall_mem_cons.mpr ⟨hid, fun e he => ?_⟩
    have hunused := h.unused e he
    rw [getRun_storePlanned] at hunused
    split_ifs at hunused
    exact hunused
  run_iff other r := by
    rw [h.run_iff, getRun_storePlanned]
    split_ifs with heq
    · subst heq
      simp [hid, eq_comm]
    · simp [Ne.symm heq]
  key_iff entry other := by
    have hnone : s.runKeys.get? (keyEntry deployment p.key) = none := by
      rw [Table.contains_eq] at hkey
      exact Option.isNone_iff_eq_none.mp (by simpa using hkey)
    have hstored : (s.storePlanned deployment id p).runKeys.get? entry =
        if keyEntry deployment p.key = entry then some id else s.runKeys.get? entry :=
      Table.get?_insert _ _ _ _
    rw [h.key_iff, hstored]
    simp only [List.mem_cons, Prod.mk.injEq, or_and_right, exists_or, and_assoc, exists_and_left,
      exists_eq_left]
    split_ifs with heq
    · subst heq
      simp [hnone, eq_comm]
    · simp [heq]
  length_eq := by
    have hmore : (s.storePlanned deployment id p).runs.entries.length =
        s.runs.entries.length + 1 := Table.length_insert hid _
    rw [h.length_eq, hmore, List.length_cons]
    omega
  deployments_eq := h.deployments_eq
  slots_eq := h.slots_eq

theorem Adds.rows (h : Adds deployment s given s') : AddsRows deployment s given s' := by
  induction h with
  | nil s => exact .nil s
  | cons hid hkey _ ih => exact .cons hid hkey ih

theorem AddsRows.contains_iff (h : AddsRows deployment s given s') {entry : String} :
    s'.runKeys.contains entry = true ↔
      s.runKeys.contains entry = true ∨ ∃ e ∈ given, keyEntry deployment e.2.key = entry := by
  simp only [Table.contains_eq, Option.isSome_iff_exists, h.key_iff, exists_or, Prod.exists]

/-! ### Runs that are handed in -/

theorem adds_insertRuns (hfresh : (Operation.insertRuns deployment given).Fresh s)
    (hnew : ∀ e ∈ given, s.runKeys.contains (keyEntry deployment e.2.key) = false)
    (hkeys : (given.map fun e => keyEntry deployment e.2.key).Nodup) :
    Adds deployment s given (s.insertRuns deployment given).1 ∧
      (s.insertRuns deployment given).2 = given.length := by
  obtain ⟨hnodup, hunused⟩ := hfresh
  induction given generalizing s with
  | nil => exact ⟨.nil s, rfl⟩
  | cons e given ih =>
    obtain ⟨id, p⟩ := e
    rw [List.forall_mem_cons] at hnew
    rw [List.map_cons, List.nodup_cons] at hkeys hnodup
    rw [List.map_cons, List.forall_mem_cons] at hunused
    have hlater : ∀ e ∈ given, (s.storePlanned deployment id p).runKeys.contains
        (keyEntry deployment e.2.key) = false := fun e he => by
      rw [Bool.eq_false_iff, Ne, contains_storePlanned, not_or]
      refine ⟨fun heq => hkeys.1 ?_, Bool.eq_false_iff.mp (hnew.2 e he)⟩
      rw [heq]
      exact List.mem_map_of_mem he
    have hstill : ∀ other ∈ given.map (·.1),
        (s.storePlanned deployment id p).getRun other = none := fun other hother => by
      have hne : id ≠ other := by
        rintro rfl
        exact hnodup.1 hother
      rw [getRun_storePlanned, if_neg hne]
      exact hunused.2 other hother
    obtain ⟨hrest, hcount⟩ := ih hlater hkeys.2 hnodup.2 hstill
    rw [insertRuns_cons, if_neg (Bool.eq_false_iff.mp hnew.1)]
    exact ⟨.cons hunused.1 hnew.1 hrest, congrArg (· + 1) hcount⟩

/-! ### Ids -/

/-- So many more runs can be stored before all ids are in use. -/
def HasRoomFor (s : Store) (n : Nat) : Prop :=
  s.runs.entries.length + n ≤ 2 ^ 128

theorem exists_unused {n : Nat} (h : s.HasRoomFor n) :
    ∃ ids : List RunId, ids.length = n ∧ ids.Nodup ∧ ∀ id ∈ ids, s.getRun id = none := by
  let used : Finset Nat := (s.runs.keys.map (·.bits.toNat)).toFinset
  have hused : used.card ≤ s.runs.entries.length := by
    refine (List.toFinset_card_le _).trans ?_
    rw [List.length_map, Table.keys, List.length_map]
  have hleft : n ≤ (Finset.range (2 ^ 128) \ used).card := by
    have hcard := Finset.le_card_sdiff used (Finset.range (2 ^ 128))
    rw [Finset.card_range] at hcard
    unfold HasRoomFor at h
    omega
  obtain ⟨numbers, hsubset, rfl⟩ := Finset.exists_subset_card_eq hleft
  have hnumber : ∀ k ∈ numbers, k < 2 ^ 128 ∧ k ∉ used := fun k hk => by
    have hmem := Finset.mem_sdiff.mp (hsubset hk)
    exact ⟨Finset.mem_range.mp hmem.1, hmem.2⟩
  have hbits {k : Nat} (hk : k ∈ numbers) : (BitVec.ofNat 128 k).toNat = k := by
    rw [BitVec.toNat_ofNat, Nat.mod_eq_of_lt (hnumber k hk).1]
  refine ⟨numbers.toList.map fun k => ⟨BitVec.ofNat 128 k⟩, ?_, ?_, fun id hid => ?_⟩
  · rw [List.length_map, Finset.length_toList]
  · refine List.Nodup.map_on (fun k hk k' hk' heq => ?_) numbers.nodup_toList
    have heq := congrArg (fun id : RunId => id.bits.toNat) heq
    dsimp only at heq
    rwa [hbits (Finset.mem_toList.mp hk), hbits (Finset.mem_toList.mp hk')] at heq
  · obtain ⟨k, hk, rfl⟩ := List.mem_map.mp hid
    rw [Finset.mem_toList] at hk
    rw [← Option.not_isSome_iff_eq_none, getRun, ← Table.contains_eq, Table.contains,
      List.any_eq_true]
    rintro ⟨e, he, hkey⟩
    have hmem : k ∈ used := by
      rw [List.mem_toFinset, List.mem_map, ← hbits hk]
      exact ⟨e.1, List.mem_map_of_mem he, congrArg (·.bits.toNat) (of_decide_eq_true hkey)⟩
    exact (hnumber k hk).2 hmem

end Store

end RunScheduler
