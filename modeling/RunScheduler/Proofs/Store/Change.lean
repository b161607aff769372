import Mathlib.Logic.Relation
import RunScheduler.Proofs.Store.Table
import RunScheduler.Store

/-!
# Changes of a store

Every operation changes a store by a few kinds of changes, one after another: a deployment is
put, a planned run is stored, a run is born of a request, a run moves on (`Store.Change`). What
holds of the empty store and survives each kind of change holds of every store.

A store is well formed if its tables are in the order of their keys and runs are stored under
their own ids (`WellFormed`); changes keep that (`Change.wellFormed`). They keep the stored runs
too, apart from the one that moves on (`Change.getRun`).
-/

namespace RunScheduler

open Relation

/-! ### Look-ups after an operation -/

namespace Store

@[simp] theorem getRun_putRun (s : Store) (r : Run) (id : RunId) :
    (s.putRun r).getRun id = if r.id = id then some r else s.getRun id :=
  Table.get?_insert s.runs r.id id r

/-- Stores a planned run and its key. -/
def storePlanned (s : Store) (deployment : String) (id : RunId) (p : PlannedRun) : Store :=
  { s.putRun (p.toRun deployment id) with
    runKeys := s.runKeys.insert (keyEntry deployment p.key) id }

@[simp] theorem getRun_storePlanned (s : Store) (deployment : String) (id : RunId)
    (p : PlannedRun) (other : RunId) :
    (s.storePlanned deployment id p).getRun other =
      if id = other then some (p.toRun deployment id) else s.getRun other :=
  getRun_putRun s (p.toRun deployment id) other

theorem insertPlanned_eq (s : Store) (deployment : String) (id : RunId) (p : PlannedRun) :
    s.insertPlanned deployment id p =
      if s.runKeys.contains (keyEntry deployment p.key) then (s, false)
      else (s.storePlanned deployment id p, true) := rfl

/-- What becomes of the slots when a run goes from one kind to another: one is taken where the
limit allows it, one is given back, or none changes hands. -/
inductive SlotMove (s : Store) (deployment : Option String) (id : RunId)
    (from? : Option StateKind) (target : StateKind) : Store → Prop
  | taken {d : String} (hdeployment : deployment = some d) (hstarts : target = .running)
      (hbefore : from? ≠ some .running)
      (hfree : ∀ limit, s.limitOf d = some limit → s.occupiedSlots d < limit.toNat) :
      SlotMove s deployment id from? target
        { s with slots := s.slots.insert (slotEntry d id) id }
  | given {d : String} (hdeployment : deployment = some d) (hbefore : from? = some .running)
      (hstops : target ≠ .running) :
      SlotMove s deployment id from? target { s with slots := s.slots.erase (slotEntry d id) }
  | unchanged (hsame : ∀ d, deployment = some d → (target = .running ↔ from? = some .running)) :
      SlotMove s deployment id from? target s

theorem slotMove_of_moveSlot {s s' : Store} {deployment : Option String} {id : RunId}
    {from? : Option StateKind} {target : StateKind}
    (h : s.moveSlot deployment id from? target = .ok s') :
    SlotMove s deployment id from? target s' := by
  rw [moveSlot.eq_def] at h
  cases deployment with
  | none =>
    cases h
    exact .unchanged fun _ h => nomatch h
  | some d =>
    dsimp only at h
    split_ifs at h with htake hgive
    · cases hlimit : s.limitOf d with
      | none =>
        simp only [hlimit, Except.ok.injEq] at h
        rw [← h]
        exact .taken rfl htake.1 htake.2 fun limit h => by rw [hlimit] at h; cases h
      | some limit =>
        simp only [hlimit] at h
        split_ifs at h with hfull
        cases h
        refine .taken rfl htake.1 htake.2 fun limit' h => ?_
        rw [hlimit] at h
        cases h
        exact Nat.lt_of_not_le hfull
    · cases h
      exact .given rfl hgive.1 hgive.2
    · cases h
      refine .unchanged fun _ _ => ⟨fun ht => ?_, fun hf => ?_⟩
      · by_contra hne
        exact htake ⟨ht, hne⟩
      · by_contra hne
        exact hgive ⟨hf, hne⟩

namespace SlotMove

variable {s s' : Store} {deployment : Option String} {id : RunId} {from? : Option StateKind}
  {target : StateKind}

theorem runs_eq (h : SlotMove s deployment id from? target s') : s'.runs = s.runs := by
  cases h <;> rfl

theorem runKeys_eq (h : SlotMove s deployment id from? target s') : s'.runKeys = s.runKeys := by
  cases h <;> rfl

theorem getRun_eq (h : SlotMove s deployment id from? target s') (other : RunId) :
    s'.getRun other = s.getRun other := by
  rw [getRun, getRun, h.runs_eq]

end SlotMove

/-! ### The kinds of changes -/

/-- A run as it is right after it was asked for. -/
structure Requested (r : Run) : Prop where
  kind : r.kind = .pending ∨ r.kind = .running
  history : r.history = []
  key : r.key = none

/-- One change of a store. Runs may be planned as `plans` says. -/
inductive Change (plans : String → PlannedRun → Prop) (s : Store) : Store → Prop
  | deployment (d : Deployment) : Change plans s (s.putDeployment d)
  | plan {deployment : String} {id : RunId} {p : PlannedRun} (hplan : plans deployment p)
      (hnew : s.getRun id = none)
      (hkey : s.runKeys.contains (keyEntry deployment p.key) = false) :
      Change plans s (s.storePlanned deployment id p)
  | birth {r : Run} {s' : Store} (hborn : Requested r) (hnew : s.getRun r.id = none)
      (hslot : SlotMove s r.deployment r.id none r.kind s') : Change plans s (s'.putRun r)
  | move {r : Run} {next : State} {s' : Store} (hstored : s.getRun r.id = some r)
      (hmove : r.kind.canBecome next.kind = true)
      (hslot : SlotMove s r.deployment r.id (some r.kind) next.kind s') :
      Change plans s (s'.putRun (r.enter next))

/-- What changes lead to, one after another. -/
abbrev Changes (plans : String → PlannedRun → Prop) : Store → Store → Prop :=
  ReflTransGen (Change plans)

variable {plans : String → PlannedRun → Prop} {s s' : Store}

theorem Change.getRun (h : Change plans s s') {id : RunId} {r : Run}
    (hr : s.getRun id = some r) :
    s'.getRun id = some r ∨
      r.id = id ∧
        ∃ next, r.kind.canBecome next.kind = true ∧ s'.getRun id = some (r.enter next) := by
  cases h with
  | deployment d => exact Or.inl hr
  | @plan deployment new p hplan hnew hkey =>
    left
    have hne : new ≠ id := by
      rintro rfl
      rw [hr] at hnew
      cases hnew
    rw [getRun_storePlanned, if_neg hne, hr]
  | @birth born s' hborn hnew hslot =>
    left
    have hne : born.id ≠ id := by
      intro heq
      rw [heq, hr] at hnew
      cases hnew
    rw [getRun_putRun, if_neg hne, hslot.getRun_eq, hr]
  | @move moved next s' hstored hmove hslot =>
    rw [getRun_putRun, hslot.getRun_eq]
    by_cases heq : moved.id = id
    · right
      subst heq
      rw [hr] at hstored
      cases hstored
      exact ⟨rfl, next, hmove, if_pos rfl⟩
    · left
      exact (if_neg heq).trans hr

/-- Where a stored run comes from: it was planned, it was asked for, it was there before, or it
moved there from another state. -/
theorem Change.origin (h : Change plans s s') {id : RunId} {r : Run}
    (hr : s'.getRun id = some r) :
    s.getRun id = some r ∨
      s.getRun id = none ∧
        ((∃ d p, plans d p ∧ s.runKeys.contains (keyEntry d p.key) = false ∧
          s' = s.storePlanned d id p ∧ r = p.toRun d id) ∨ Requested r ∧ r.id = id) ∨
      ∃ before next, s.getRun id = some before ∧ before.id = id ∧
        before.kind.canBecome next.kind = true ∧ r = before.enter next := by
  cases h with
  | deployment d => exact Or.inl hr
  | @plan deployment new p hplan hnew hkey =>
    rw [getRun_storePlanned] at hr
    split_ifs at hr with heq
    · subst heq
      cases hr
      exact Or.inr (Or.inl ⟨hnew, Or.inl ⟨deployment, p, hplan, hkey, rfl, rfl⟩⟩)
    · exact Or.inl hr
  | @birth born s' hborn hnew hslot =>
    rw [getRun_putRun, hslot.getRun_eq] at hr
    split_ifs at hr with heq
    · subst heq
      cases hr
      exact Or.inr (Or.inl ⟨hnew, Or.inr ⟨hborn, rfl⟩⟩)
    · exact Or.inl hr
  | @move moved next s' hstored hmove hslot =>
    rw [getRun_putRun, hslot.getRun_eq] at hr
    split_ifs at hr with heq
    · subst heq
      cases hr
      exact Or.inr (Or.inr ⟨moved, next, hstored, rfl, hmove, rfl⟩)
    · exact Or.inl hr

/-! ### Well-formed stores -/

structure WellFormed (s : Store) : Prop where
  runs_ordered : s.runs.Ordered
  slots_ordered : s.slots.Ordered
  /-- Runs are stored under their own ids. -/
  id_eq : ∀ {id r}, s.getRun id = some r → r.id = id

theorem WellFormed.empty : WellFormed empty where
  runs_ordered := Table.Ordered.empty
  slots_ordered := Table.Ordered.empty
  id_eq h := nomatch h

theorem WellFormed.mem_values_iff (hs : s.WellFormed) {r : Run} :
    r ∈ s.runs.values ↔ s.getRun r.id = some r := by
  rw [Table.mem_values_iff hs.runs_ordered]
  refine ⟨fun ⟨id, hget⟩ => ?_, fun h => ⟨r.id, h⟩⟩
  rw [hs.id_eq hget]
  exact hget

theorem WellFormed.nodup_ids (hs : s.WellFormed) : (s.runs.values.map (·.id)).Nodup := by
  have hids : s.runs.values.map (·.id) = s.runs.keys := by
    rw [Table.values, Table.keys, List.map_map]
    refine List.map_congr_left fun e hmem => ?_
    exact hs.id_eq ((Table.mem_entries_iff hs.runs_ordered).mp hmem)
  rw [hids]
  exact hs.runs_ordered.nodup_keys

theorem SlotMove.slots_ordered {deployment : Option String} {id : RunId}
    {from? : Option StateKind} {target : StateKind} (hs : s.slots.Ordered)
    (h : SlotMove s deployment id from? target s') : s'.slots.Ordered := by
  cases h with
  | taken => exact hs.insert _ _
  | given => exact hs.erase _
  | unchanged => exact hs

theorem Change.wellFormed (hs : s.WellFormed) (h : Change plans s s') : s'.WellFormed := by
  refine ⟨?_, ?_, fun {id r} hr => ?_⟩
  · cases h with
    | deployment => exact hs.runs_ordered
    | plan => exact hs.runs_ordered.insert _ _
    | birth _ _ hslot => exact (hslot.runs_eq ▸ hs.runs_ordered).insert _ _
    | move _ _ hslot => exact (hslot.runs_eq ▸ hs.runs_ordered).insert _ _
  · cases h with
    | deployment => exact hs.slots_ordered
    | plan => exact hs.slots_ordered
    | birth _ _ hslot =>
      have hordered := hslot.slots_ordered hs.slots_ordered
      exact hordered
    | move _ _ hslot =>
      have hordered := hslot.slots_ordered hs.slots_ordered
      exact hordered
  · rcases h.origin hr with hr | ⟨_, ⟨_, _, _, _, _, rfl⟩ | ⟨_, hid⟩⟩ | ⟨_, _, _, hid, _, rfl⟩
    · exact hs.id_eq hr
    · rfl
    · exact hid
    · exact hid

theorem Changes.wellFormed (hs : s.WellFormed) (h : Changes plans s s') : s'.WellFormed := by
  induction h with
  | refl => exact hs
  | tail _ hchange ih => exact hchange.wellFormed ih

theorem Changes.invariant {Inv : Store → Prop}
    (hstep : ∀ {s s'}, s.WellFormed → Inv s → Change plans s s' → Inv s') (hs : s.WellFormed)
    (hinv : Inv s) (h : Changes plans s s') : Inv s' := by
  induction h with
  | refl => exact hinv
  | tail hbefore hchange ih => exact hstep (Changes.wellFormed hs hbefore) ih hchange

end Store

end RunScheduler
