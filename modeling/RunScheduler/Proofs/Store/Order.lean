import Mathlib.Data.Finset.Card
import Mathlib.Data.List.Sort
import RunScheduler.Proofs.Store.Selection

/-!
# Runs in order

Runs come by their scheduled times, and by their ids where these agree, so that what a filter
selects is a part of all runs in their order (`selected_eq_filter`). A run keeps its place when it
enters another state. If some runs have entered one and nothing else has happened
(`Store.Entered`), a filter selects those of the runs before, in the same order, that are now as it
asks for (`selected_of_entered`).
-/

namespace RunScheduler

namespace Run

/-- The run has an earlier place: an earlier scheduled time, or the same and a smaller id. -/
def Before (a b : Run) : Prop :=
  a.scheduledTime < b.scheduledTime ∨ a.scheduledTime = b.scheduledTime ∧ a.id < b.id

instance : Std.Irrefl Before where
  irrefl a h := by
    rcases h with h | ⟨_, h⟩
    · exact Instant.lt_irrefl _ h
    · exact irrefl_of (· < ·) a.id h

instance : Std.Antisymm Before where
  antisymm a b hab hba := by
    rcases hab with hab | ⟨heq, hab⟩ <;> rcases hba with hba | ⟨heq', hba⟩
    · exact absurd (Instant.lt_trans hab hba) (Instant.lt_irrefl _)
    · exact absurd hab (heq' ▸ Instant.lt_irrefl _)
    · exact absurd hba (heq ▸ Instant.lt_irrefl _)
    · exact absurd (IsTrans.trans _ _ _ hab hba) (irrefl_of (· < ·) a.id)

/-- What has become of a run if those with some ids have entered a state. -/
def entered (r : Run) (next : State) (moved : Finset RunId) : Run :=
  if r.id ∈ moved then r.enter next else r

section

variable {r : Run} {next : State} {moved : Finset RunId}

theorem entered_of_mem (h : r.id ∈ moved) : r.entered next moved = r.enter next := if_pos h

theorem entered_of_notMem (h : r.id ∉ moved) : r.entered next moved = r := if_neg h

@[simp] theorem id_entered : (r.entered next moved).id = r.id := by
  rw [entered]
  split_ifs <;> rfl

@[simp] theorem scheduledTime_entered :
    (r.entered next moved).scheduledTime = r.scheduledTime := by
  rw [entered]
  split_ifs <;> rfl

@[simp] theorem parent_entered : (r.entered next moved).parent = r.parent := by
  rw [entered]
  split_ifs <;> rfl

theorem map_entered {runs : List Run} (h : ∀ r ∈ runs, r.id ∉ moved) :
    runs.map (·.entered next moved) = runs := by
  induction runs with
  | nil => rfl
  | cons r runs ih =>
    obtain ⟨hr, hrest⟩ := List.forall_mem_cons.mp h
    rw [List.map_cons, entered_of_notMem hr, ih hrest]

end

end Run

namespace Store

variable {s s₁ s' : Store} {next : State} {moved : Finset RunId}

/-! ### All runs in order -/

theorem runOrder_trans (a b c : Run) (hab : runOrder a b = true) (hbc : runOrder b c = true) :
    runOrder a c = true := by
  simp only [runOrder, Bool.or_eq_true, Bool.and_eq_true, decide_eq_true_eq, Bool.not_eq_true',
    decide_eq_false_iff_not] at hab hbc ⊢
  rcases hab with hab | ⟨hab, hle⟩ <;> rcases hbc with hbc | ⟨hbc, hle'⟩
  · exact Or.inl (Instant.lt_trans hab hbc)
  · exact Or.inl (hbc ▸ hab)
  · exact Or.inl (hab ▸ hbc)
  · exact Or.inr ⟨hab.trans hbc, Nat.not_lt.mpr ((Nat.not_lt.mp hle).trans (Nat.not_lt.mp hle'))⟩

theorem runOrder_total (a b : Run) : (runOrder a b || runOrder b a) = true := by
  simp only [runOrder, Bool.or_eq_true, Bool.and_eq_true, decide_eq_true_eq, Bool.not_eq_true',
    decide_eq_false_iff_not]
  by_cases hab : a.scheduledTime < b.scheduledTime
  · exact Or.inl (Or.inl hab)
  · by_cases hba : b.scheduledTime < a.scheduledTime
    · exact Or.inr (Or.inl hba)
    · have heq := Instant.le_antisymm (Instant.not_lt.mp hba) (Instant.not_lt.mp hab)
      by_cases hid : b.id < a.id
      · exact Or.inr (Or.inr ⟨heq.symm, Nat.not_lt.mpr (Nat.le_of_lt hid)⟩)
      · exact Or.inl (Or.inr ⟨heq, hid⟩)

theorem nodup_ids_selected (hs : s.WellFormed) (f : RunFilter) :
    ((s.selected f).map (·.id)).Nodup := by
  have hsublist : ((s.runs.values.filter f.selects).map (·.id)).Sublist
      (s.runs.values.map (·.id)) := List.filter_sublist.map _
  exact ((List.mergeSort_perm _ _).map _).nodup_iff.mpr (hs.nodup_ids.sublist hsublist)

theorem pairwise_selected (hs : s.WellFormed) (f : RunFilter) :
    (s.selected f).Pairwise Run.Before := by
  have horder : (s.selected f).Pairwise fun a b => runOrder a b = true := by
    rw [selected]
    exact List.pairwise_mergeSort runOrder_trans runOrder_total _
  have hids : (s.selected f).Pairwise fun a b => a.id ≠ b.id :=
    List.pairwise_map.mp (nodup_ids_selected hs f)
  refine (horder.and hids).imp ?_
  rintro a b ⟨hle, hne⟩
  simp only [runOrder, Bool.or_eq_true, Bool.and_eq_true, decide_eq_true_eq, Bool.not_eq_true',
    decide_eq_false_iff_not] at hle
  refine hle.imp_right fun hsame => ⟨hsame.1, ?_⟩
  rcases trichotomous_of (fun i j : RunId => i < j) a.id b.id with h | h | h
  · exact h
  · exact absurd h hne
  · exact absurd h hsame.2

/-- All runs in order. -/
def inOrder (s : Store) : List Run := s.selected {}

theorem mem_inOrder_iff (hs : s.WellFormed) {r : Run} :
    r ∈ s.inOrder ↔ s.getRun r.id = some r := by
  rw [inOrder, mem_selected_iff hs]
  exact and_iff_left rfl

theorem selected_eq_filter (hs : s.WellFormed) (f : RunFilter) :
    s.selected f = s.inOrder.filter f.selects := by
  refine (pairwise_selected hs f).eq_of_mem_iff ((pairwise_selected hs {}).filter _) fun r => ?_
  rw [mem_selected_iff hs, List.mem_filter]
  exact and_congr_left' (mem_inOrder_iff hs).symm

theorem query_page (s : Store) (f : RunFilter) (limit offset : Nat) :
    s.query (f.page limit offset) = ((s.selected f).drop offset).take limit := rfl

/-! ### Runs that have entered a state -/

/-- Some runs of the first store have entered a state in the second one. Nothing else has
happened to runs. -/
structure Entered (next : State) (moved : Finset RunId) (s s' : Store) : Prop where
  wellFormed : s'.WellFormed
  getRun : ∀ id, s'.getRun id = (s.getRun id).map (·.entered next moved)

theorem Entered.refl (hs : s.WellFormed) (next : State) : Entered next ∅ s s where
  wellFormed := hs
  getRun id := by
    cases s.getRun id with
    | none => rfl
    | some r => rw [Option.map_some, Run.entered_of_notMem (Finset.notMem_empty _)]

theorem Entered.getRun_of_notMem (hs : s.WellFormed) (h : Entered next moved s s') {id : RunId}
    (hid : id ∉ moved) : s'.getRun id = s.getRun id := by
  rw [h.getRun]
  cases hget : s.getRun id with
  | none => rfl
  | some r => rw [Option.map_some, Run.entered_of_notMem (by rwa [hs.id_eq hget])]

theorem Entered.commit (hs : s.WellFormed) (h : Entered next moved s s₁) {r : Run}
    {expected : Expected} (hget : s.getRun r.id = some r) (hnew : r.id ∉ moved)
    (hcommit : s₁.commit r.id expected next = .ok (s', r.enter next)) :
    Entered next (insert r.id moved) s s' := by
  obtain ⟨before, hbefore, _, hmove, _, s₂, hslot, rfl⟩ := change_of_commit h.wellFormed hcommit
  have hsame := h.getRun_of_notMem hs hnew
  rw [hbefore, hget] at hsame
  cases hsame
  have hchange : Change (fun _ _ => True) s₁ (s₂.putRun (r.enter next)) :=
    .move hbefore hmove hslot
  refine ⟨hchange.wellFormed h.wellFormed, fun id => ?_⟩
  rw [getRun_putRun, hslot.getRun_eq, h.getRun]
  split_ifs with hid
  · rw [← show r.id = id from hid, hget, Option.map_some,
      Run.entered_of_mem (Finset.mem_insert_self _ _)]
  · have hne : id ≠ r.id := fun heq => hid heq.symm
    refine Option.map_congr fun other hother => ?_
    simp only [Run.entered, hs.id_eq hother, Finset.mem_insert, hne, false_or]

/-- A filter selects the runs, as they are now, that are as it asks for. -/
theorem selected_of_entered (hs : s.WellFormed) (h : Entered next moved s s') (f : RunFilter) :
    s'.selected f = (s.inOrder.filter fun r => f.selects (r.entered next moved)).map
      (·.entered next moved) := by
  have hplaces : ((s.inOrder.filter fun r => f.selects (r.entered next moved)).map
      (·.entered next moved)).Pairwise Run.Before := by
    refine List.pairwise_map.mpr (((pairwise_selected hs {}).filter _).imp fun {a b} hlt => ?_)
    simpa only [Run.Before, Run.id_entered, Run.scheduledTime_entered] using hlt
  refine (pairwise_selected h.wellFormed f).eq_of_mem_iff hplaces fun r' => ?_
  rw [mem_selected_iff h.wellFormed, h.getRun, Option.map_eq_some_iff, List.mem_map]
  constructor
  · rintro ⟨⟨r, hget, rfl⟩, hselects⟩
    rw [Run.id_entered] at hget
    exact ⟨r, List.mem_filter.mpr ⟨(mem_inOrder_iff hs).mpr hget, hselects⟩, rfl⟩
  · rintro ⟨r, hmem, rfl⟩
    obtain ⟨hmem, hselects⟩ := List.mem_filter.mp hmem
    exact ⟨⟨r, by rw [Run.id_entered]; exact (mem_inOrder_iff hs).mp hmem, rfl⟩, hselects⟩

theorem selected_of_leaving (hs : s.WellFormed) (h : Entered next moved s s') {f : RunFilter}
    (hleaves : ∀ r : Run, f.selects (r.enter next) = false) :
    s'.selected f = (s.selected f).filter fun r => r.id ∉ moved := by
  have hkept (r : Run) : f.selects (r.entered next moved) =
      (decide (r.id ∉ moved) && f.selects r) := by
    rw [Run.entered]
    split_ifs with hmem
    · rw [hleaves, decide_eq_false (not_not.mpr hmem), Bool.false_and]
    · rw [decide_eq_true hmem, Bool.true_and]
  rw [selected_of_entered hs h, selected_eq_filter hs, List.filter_filter]
  simp only [hkept]
  refine Run.map_entered fun r hmem => ?_
  have hkeeps := (List.mem_filter.mp hmem).2
  rw [Bool.and_eq_true, decide_eq_true_eq] at hkeeps
  exact hkeeps.1

end Store

end RunScheduler
