import Mathlib.Data.Finset.Card
import RunScheduler.Proofs.Housekeeping.Cleanup
import RunScheduler.Proofs.Store.Order

/-!
# Runs and their children

A clean-up is about the runs that have not ended (`Store.Ongoing`) and from which a chain of parents
leads to a run that was cancelled lately (`Store.BelowCancelledSince`). It asks for the children of
one run at a time. These are found in the same order after some of them have entered another state,
and those that have not are found as they were (`query_children`).
-/

namespace RunScheduler

namespace Store

open Relation

variable {s s' : Store} {next : State} {moved : Finset RunId} {since : Instant} {id : RunId}

/-! ### Runs below others -/

/-- The run has not ended. -/
def Ongoing (s : Store) (id : RunId) : Prop :=
  ∃ r, s.getRun id = some r ∧ r.state.isTerminal = false

/-- The run is cancelled, and has not changed before this instant. -/
def CancelledSince (s : Store) (since : Instant) (id : RunId) : Prop :=
  ∃ r, s.getRun id = some r ∧ r.kind = .cancelled ∧ since ≤ r.updatedAt

/-- A chain of one parent or more leads from the run to one that was cancelled lately. What
became of the runs between them does not matter. -/
def BelowCancelledSince (s : Store) (since : Instant) (id : RunId) : Prop :=
  ∃ root, TransGen s.ParentOf id root ∧ s.CancelledSince since root

/-- The run was cancelled lately or is below one that was. -/
def ReachedSince (s : Store) (since : Instant) (id : RunId) : Prop :=
  ∃ root, ReflTransGen s.ParentOf id root ∧ s.CancelledSince since root

theorem belowCancelledSince_iff :
    s.BelowCancelledSince since id ↔ ∃ parent, s.ParentOf id parent ∧
      s.ReachedSince since parent := by
  constructor
  · rintro ⟨root, hchain, hroot⟩
    obtain ⟨parent, hparent, hrest⟩ := TransGen.head'_iff.mp hchain
    exact ⟨parent, hparent, root, hrest, hroot⟩
  · rintro ⟨parent, hparent, root, hrest, hroot⟩
    exact ⟨root, TransGen.head'_iff.mpr ⟨parent, hparent, hrest⟩, hroot⟩

theorem ReachedSince.child {parent : RunId} (hparent : s.ParentOf id parent)
    (h : s.ReachedSince since parent) : s.ReachedSince since id := by
  obtain ⟨root, hchain, hroot⟩ := h
  exact ⟨root, .head hparent hchain, hroot⟩

/-! ### Children -/

def children (s : Store) (parent : RunId) : List Run :=
  s.selected { parent := some parent }

theorem mem_children_iff (hs : s.WellFormed) {parent : RunId} {c : Run} :
    c ∈ s.children parent ↔ s.getRun c.id = some c ∧ c.parent = some parent := by
  rw [children, mem_selected_iff hs]
  simp [RunFilter.selects]

theorem exists_mem_children_iff (hs : s.WellFormed) {parent : RunId} :
    (∃ c ∈ s.children parent, c.id = id) ↔ s.ParentOf id parent := by
  constructor
  · rintro ⟨c, hc, rfl⟩
    exact ⟨c, (mem_children_iff hs).mp hc⟩
  · rintro ⟨c, hget, hparent⟩
    obtain rfl := hs.id_eq hget
    exact ⟨c, (mem_children_iff hs).mpr ⟨hget, hparent⟩, rfl⟩

/-- The ids of those that have not ended. -/
def ongoingIds (runs : List Run) : Finset RunId :=
  ((runs.filter (!·.state.isTerminal)).map (·.id)).toFinset

theorem mem_ongoingIds_iff {runs : List Run} :
    id ∈ ongoingIds runs ↔ ∃ r ∈ runs, r.state.isTerminal = false ∧ r.id = id := by
  simp [ongoingIds, and_assoc]

theorem mem_ongoingIds_children_iff (hs : s.WellFormed) {parent : RunId} :
    id ∈ ongoingIds (s.children parent) ↔ s.Ongoing id ∧ s.ParentOf id parent := by
  rw [mem_ongoingIds_iff]
  constructor
  · rintro ⟨c, hc, hongoing, rfl⟩
    obtain ⟨hget, hparent⟩ := (mem_children_iff hs).mp hc
    exact ⟨⟨c, hget, hongoing⟩, c, hget, hparent⟩
  · rintro ⟨⟨c, hget, hongoing⟩, c', hget', hparent⟩
    rw [hget] at hget'
    cases hget'
    obtain rfl := hs.id_eq hget
    exact ⟨c, (mem_children_iff hs).mpr ⟨hget, hparent⟩, hongoing, rfl⟩

@[simp] theorem ongoingIds_nil : ongoingIds [] = ∅ := List.toFinset_nil

theorem ongoingIds_append (runs runs' : List Run) :
    ongoingIds (runs ++ runs') = ongoingIds runs ∪ ongoingIds runs' := by
  rw [ongoingIds, List.filter_append, List.map_append, List.toFinset_append]
  rfl

theorem notMem_union_ongoingIds {runs runs' : List Run}
    (hnodup : ((runs ++ runs').map (·.id)).Nodup) (hnew : ∀ r ∈ runs', r.id ∉ moved) :
    ∀ r ∈ runs', r.id ∉ moved ∪ ongoingIds runs := by
  intro r hr hmem
  rw [List.map_append, List.nodup_append] at hnodup
  rcases Finset.mem_union.mp hmem with hmem | hmem
  · exact hnew r hr hmem
  · obtain ⟨r', hr', _, hid⟩ := mem_ongoingIds_iff.mp hmem
    exact hnodup.2.2 _ (List.mem_map_of_mem hr') _ (List.mem_map_of_mem hr) hid

theorem query_children (hs : s.WellFormed) (h : Entered next moved s s') {parent : RunId}
    {limit offset : Nat} (hnew : ∀ c ∈ (s.children parent).drop offset, c.id ∉ moved) :
    s'.query (RunFilter.page { parent := some parent } limit offset) =
      ((s.children parent).drop offset).take limit := by
  have hsame (r : Run) : RunFilter.selects { parent := some parent } (r.entered next moved) =
      RunFilter.selects { parent := some parent } r := by
    simp [RunFilter.selects]
  rw [query_page, selected_of_entered hs h]
  simp only [hsame]
  rw [← selected_eq_filter hs, ← children, ← List.map_drop, ← List.map_take]
  exact Run.map_entered fun c hc => hnew c (List.mem_of_mem_take hc)

end Store

end RunScheduler
