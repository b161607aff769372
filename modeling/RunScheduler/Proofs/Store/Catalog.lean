import RunScheduler.Proofs.Store.Sharing

/-!
# Pages of the catalog

The deployments of a store are kept in the order of their ids, each under its own
(`CatalogOrdered`), so that the schedulable ones after an id are a back part of all of them. A page
is a front part of those after its token, and either nothing is left behind it or the token of the
next page begins just there (`next_listSchedulable`). In a shared store nothing but to put a
deployment changes any of this (`Undergoes.deployments_eq`).
-/

namespace RunScheduler.Store

variable {plans : String → PlannedRun → Prop} {s s' : Store}

/-! ### The order of the catalog -/

structure CatalogOrdered (s : Store) : Prop where
  ordered : s.deployments.Ordered
  /-- Deployments are stored under their own ids. -/
  id_eq : ∀ {id d}, s.getDeployment id = some d → d.id = id

theorem CatalogOrdered.empty : CatalogOrdered empty where
  ordered := Table.Ordered.empty
  id_eq h := nomatch h

theorem CatalogOrdered.congr (h : s.CatalogOrdered) (hsame : s'.deployments = s.deployments) :
    s'.CatalogOrdered where
  ordered := hsame ▸ h.ordered
  id_eq hget := by
    rw [getDeployment, hsame] at hget
    exact h.id_eq hget

theorem SlotMove.deployments_eq {deployment : Option String} {id : RunId}
    {from? : Option StateKind} {target : StateKind} (h : SlotMove s deployment id from? target s') :
    s'.deployments = s.deployments := by
  cases h <;> rfl

theorem Change.catalogOrdered (h : s.CatalogOrdered) (hchange : Change plans s s') :
    s'.CatalogOrdered := by
  cases hchange with
  | plan => exact h.congr rfl
  | birth _ _ hslot => exact h.congr hslot.deployments_eq
  | move _ _ hslot => exact h.congr hslot.deployments_eq
  | deployment d =>
    refine ⟨h.ordered.insert d.id d, fun {id stored} hget => ?_⟩
    rw [getDeployment, putDeployment, Table.get?_insert] at hget
    split_ifs at hget with hid
    · cases hget
      exact hid
    · exact h.id_eq hget

theorem Reachable.catalogOrdered (h : Reachable s) : s.CatalogOrdered :=
  h.changes.invariant (fun _ hinv hchange => hchange.catalogOrdered hinv) .empty .empty

/-! ### What changes the catalog -/

theorem deployments_insertRuns (s : Store) (deployment : String)
    (given : List (RunId × PlannedRun)) :
    (s.insertRuns deployment given).1.deployments = s.deployments := by
  induction given generalizing s with
  | nil => rfl
  | cons e given ih =>
    rw [insertRuns_cons]
    split_ifs
    · exact ih s
    · exact ih _

theorem Effect.deployments_eq {op : Operation} {result : Store × Outcome} (h : Effect s op result)
    (hput : ∀ d, op ≠ .putDeployment d) : result.1.deployments = s.deployments := by
  cases h with
  | deployment d => exact absurd rfl (hput d)
  | inserted deployment given => exact deployments_insertRuns s deployment given
  | born _ _ hslot => exact hslot.deployments_eq
  | moved _ _ _ hslot => exact hslot.deployments_eq
  | known | rejected => rfl

section Sharing

variable {ι : Type} {step : Step ι} {steps : List (Step ι)}

theorem Happens.deployments_eq (hs : s.WellFormed) (h : Happens s step s') :
    s'.deployments = s.deployments ∨
      ∃ d, step = .acted (.putDeployment d) .stored ∧ s' = s.putDeployment d := by
  have hop {op : Operation} (hfresh : op.Fresh s) (hput : ∀ d, op ≠ .putDeployment d) :
      (s.perform op).1.deployments = s.deployments :=
    (effect_perform hs hfresh).deployments_eq hput
  cases h with
  | failed => exact Or.inl rfl
  | answered h =>
    rcases h.exists_op with rfl | ⟨op, hfresh, rfl, hput⟩
    · exact Or.inl rfl
    · exact Or.inl (hop hfresh hput)
  | @acted op hfresh =>
    cases op with
    | putDeployment d => exact Or.inr ⟨d, rfl, rfl⟩
    | insertRuns | create | commit => exact Or.inl (hop hfresh fun _ h => nomatch h)

theorem Undergoes.deployments_eq (hs : s.WellFormed) (h : Undergoes s steps s')
    (hput : ∀ d, .acted (.putDeployment d) .stored ∉ steps) : s'.deployments = s.deployments := by
  induction h with
  | nil => rfl
  | @cons s s₁ s' step steps hstep _ ih =>
    have hsame : s₁.deployments = s.deployments := by
      rcases hstep.deployments_eq hs with hsame | ⟨d, rfl, _⟩
      · exact hsame
      · exact absurd List.mem_cons_self (hput d)
    rw [ih ((hstep.changes hs).wellFormed hs) fun d hmem => hput d (List.mem_cons_of_mem _ hmem),
      hsame]

theorem Undergoes.getDeployment_eq (hs : s.WellFormed) (h : Undergoes s steps s') {id : String}
    (hput : ∀ d, .acted (.putDeployment d) .stored ∈ steps → d.id ≠ id) :
    s'.getDeployment id = s.getDeployment id := by
  induction h with
  | nil => rfl
  | @cons s s₁ s' step steps hstep _ ih =>
    have hsame : s₁.getDeployment id = s.getDeployment id := by
      rcases hstep.deployments_eq hs with hsame | ⟨d, rfl, rfl⟩
      · rw [getDeployment, hsame, getDeployment]
      · rw [getDeployment, putDeployment, Table.get?_insert,
          if_neg (hput d List.mem_cons_self), getDeployment]
    rw [ih ((hstep.changes hs).wellFormed hs) fun d hmem => hput d (List.mem_cons_of_mem _ hmem),
      hsame]

end Sharing

/-! ### Schedulable deployments -/

/-- All schedulable deployments in the order of their ids. -/
def schedulable (s : Store) : List Deployment :=
  s.listDeployments.filter (·.isSchedulable)

/-- The id comes after where a page begins. -/
def Follows (token : Option String) (id : String) : Prop :=
  ∀ last, token = some last → last < id

instance (token : Option String) (id : String) : Decidable (Follows token id) :=
  match token with
  | none => isTrue nofun
  | some last => decidable_of_iff (last < id)
      ⟨fun h _ heq => Option.some.inj heq ▸ h, fun h => h last rfl⟩

/-- The schedulable deployments from where a page begins. -/
def schedulableAfter (s : Store) (token : Option String) : List Deployment :=
  s.schedulable.filter fun d => Follows token d.id

theorem schedulableAfter_none (s : Store) : s.schedulableAfter none = s.schedulable :=
  List.filter_eq_self.mpr fun _ _ => decide_eq_true nofun

theorem CatalogOrdered.mem_schedulable_iff (h : s.CatalogOrdered) {d : Deployment} :
    d ∈ s.schedulable ↔ s.getDeployment d.id = some d ∧ d.isSchedulable = true := by
  rw [schedulable, listDeployments, List.mem_filter, Table.mem_values_iff h.ordered]
  refine and_congr_left fun _ => ⟨fun ⟨id, hget⟩ => ?_, fun hget => ⟨d.id, hget⟩⟩
  rw [h.id_eq hget]
  exact hget

theorem CatalogOrdered.pairwise_schedulable (h : s.CatalogOrdered) :
    s.schedulable.Pairwise fun d d' => d.id < d'.id := by
  refine List.Pairwise.filter _ (List.pairwise_map.mpr ?_)
  refine h.ordered.imp_of_mem fun {e e'} he he' hlt => ?_
  rw [h.id_eq ((Table.mem_entries_iff h.ordered).mp he),
    h.id_eq ((Table.mem_entries_iff h.ordered).mp he')]
  exact hlt

theorem CatalogOrdered.pairwise_schedulableAfter (h : s.CatalogOrdered) (token : Option String) :
    (s.schedulableAfter token).Pairwise fun d d' => d.id < d'.id :=
  h.pairwise_schedulable.filter _

/-! ### Pages -/

theorem CatalogOrdered.deployments_listSchedulable (h : s.CatalogOrdered) (token : Option String)
    {size : Nat} (hsize : 0 < size) :
    (s.listSchedulable token size).deployments = (s.schedulableAfter token).take size := by
  rw [listSchedulable.eq_def, if_neg hsize.ne']
  cases token with
  | none =>
    rw [schedulableAfter_none]
    rfl
  | some last =>
    dsimp only
    congr 1
    rw [Table.after, schedulableAfter, schedulable, listDeployments, Table.values,
      List.filter_map, List.filter_map, List.filter_map, List.filter_filter, List.filter_filter]
    congr 1
    refine List.filter_congr fun e he => ?_
    have hid : e.2.id = e.1 := h.id_eq ((Table.mem_entries_iff h.ordered).mp he)
    have hfollows : Follows (some last) e.1 ↔ last < e.1 :=
      ⟨fun h => h last rfl, fun h _ heq => Option.some.inj heq ▸ h⟩
    simp only [Function.comp_apply, hid, hfollows, Bool.and_comm]

/-- Only a full page has a next one, and it begins after the last deployment of the page. -/
theorem next_listSchedulable (s : Store) (token : Option String) {size : Nat} (hsize : 0 < size) :
    (s.listSchedulable token size).next =
      if (s.listSchedulable token size).deployments.length = size then
        (s.listSchedulable token size).deployments.getLast?.map (·.id) else none := by
  rw [listSchedulable.eq_def, if_neg hsize.ne']

theorem CatalogOrdered.of_next_eq_none (h : s.CatalogOrdered) {token : Option String} {size : Nat}
    (hsize : 0 < size) (hnext : (s.listSchedulable token size).next = none) :
    (s.listSchedulable token size).deployments = s.schedulableAfter token ∧
      (s.schedulableAfter token).length < size := by
  have hpage := h.deployments_listSchedulable token hsize
  have hlength := congrArg List.length hpage
  rw [List.length_take] at hlength
  rw [next_listSchedulable s token hsize] at hnext
  split_ifs at hnext with hfull
  · rw [Option.map_eq_none_iff, List.getLast?_eq_none_iff] at hnext
    rw [hnext, List.length_nil] at hfull
    omega
  · rw [hpage, List.take_of_length_le (by omega)]
    exact ⟨rfl, by omega⟩

theorem CatalogOrdered.of_next_eq_some (h : s.CatalogOrdered) {token : Option String} {size : Nat}
    (hsize : 0 < size) {id : String} (hnext : (s.listSchedulable token size).next = some id) :
    size ≤ (s.schedulableAfter token).length ∧
      s.schedulableAfter (some id) = (s.schedulableAfter token).drop size ∧
      Follows token id ∧
      ∃ front last, (s.listSchedulable token size).deployments = front ++ [last] ∧
        last.id = id := by
  have hpage := h.deployments_listSchedulable token hsize
  have hlength := congrArg List.length hpage
  rw [List.length_take] at hlength
  rw [next_listSchedulable s token hsize] at hnext
  split_ifs at hnext with hfull
  obtain ⟨last, hlast, rfl⟩ := Option.map_eq_some_iff.mp hnext
  obtain ⟨front, hfront⟩ := List.getLast?_eq_some_iff.mp hlast
  generalize hrest : (s.schedulableAfter token).drop size = rest
  have hall : s.schedulableAfter token = front ++ last :: rest := by
    rw [← hrest, ← List.singleton_append, ← List.append_assoc, ← hfront, hpage,
      List.take_append_drop]
  have hfollows : Follows token last.id := by
    have hmem : last ∈ s.schedulableAfter token := by
      rw [hall]
      exact List.mem_append_right _ List.mem_cons_self
    exact of_decide_eq_true (List.mem_filter.mp hmem).2
  refine ⟨by omega, ?_, hfollows, front, last, hfront, rfl⟩
  have hafter : s.schedulableAfter (some last.id) =
      (s.schedulableAfter token).filter fun d => last.id < d.id := by
    rw [schedulableAfter, schedulableAfter, List.filter_filter]
    refine List.filter_congr fun d _ => ?_
    rw [Bool.eq_iff_iff, Bool.and_eq_true, decide_eq_true_eq, decide_eq_true_eq, decide_eq_true_eq]
    constructor
    · exact fun hd => ⟨hd _ rfl, fun first hfirst => (hfollows first hfirst).trans (hd _ rfl)⟩
    · exact fun hd _ heq => Option.some.inj heq ▸ hd.1
  have hsorted := h.pairwise_schedulableAfter token
  rw [hall, List.pairwise_append, List.pairwise_cons] at hsorted
  obtain ⟨_, ⟨hlater, _⟩, hearlier⟩ := hsorted
  have hnone : front.filter (fun d => decide (last.id < d.id)) = [] := by
    refine List.filter_eq_nil_iff.mpr fun d hd hlt => ?_
    exact lt_asymm (hearlier d hd last List.mem_cons_self) (of_decide_eq_true hlt)
  have hsame : rest.filter (fun d => decide (last.id < d.id)) = rest :=
    List.filter_eq_self.mpr fun d hd => decide_eq_true (hlater d hd)
  rw [hafter, hall, List.filter_append, hnone, List.nil_append,
    List.filter_cons_of_neg (by simp), hsame]

theorem listSchedulable_congr (h : s'.deployments = s.deployments) (token : Option String)
    (size : Nat) : s'.listSchedulable token size = s.listSchedulable token size := by
  rw [listSchedulable.eq_def, listSchedulable.eq_def, h]

section Page

variable {token : Option String} {size : Nat}

theorem CatalogOrdered.of_mem_listSchedulable (h : s.CatalogOrdered) (hsize : 0 < size)
    {d : Deployment} (hmem : d ∈ (s.listSchedulable token size).deployments) :
    d ∈ s.schedulable ∧ Follows token d.id := by
  rw [h.deployments_listSchedulable token hsize] at hmem
  exact (List.mem_filter.mp (List.mem_of_mem_take hmem)).imp_right of_decide_eq_true

theorem CatalogOrdered.pairwise_listSchedulable (h : s.CatalogOrdered) (hsize : 0 < size) :
    (s.listSchedulable token size).deployments.Pairwise fun d d' => d.id < d'.id := by
  rw [h.deployments_listSchedulable token hsize]
  exact (h.pairwise_schedulableAfter token).take

theorem CatalogOrdered.le_of_next_eq_some (h : s.CatalogOrdered) (hsize : 0 < size) {id : String}
    (hnext : (s.listSchedulable token size).next = some id) {d : Deployment}
    (hmem : d ∈ (s.listSchedulable token size).deployments) : d.id ≤ id := by
  obtain ⟨_, _, _, front, last, hpage, rfl⟩ := h.of_next_eq_some hsize hnext
  have hsorted : (s.listSchedulable token size).deployments.Pairwise _ :=
    h.pairwise_listSchedulable hsize
  rw [hpage] at hmem hsorted
  rcases List.mem_append.mp hmem with hfront | hlast
  · exact ((List.pairwise_append.mp hsorted).2.2 d hfront last (List.mem_singleton_self _)).le
  · rw [List.mem_singleton.mp hlast]

theorem CatalogOrdered.listed_or_follows (h : s.CatalogOrdered) (hsize : 0 < size) {id : String}
    {d : Deployment} (hget : s.getDeployment id = some d) (hschedulable : d.isSchedulable = true)
    (hfollows : Follows token id) :
    (∃ d ∈ (s.listSchedulable token size).deployments, d.id = id) ∨
      ∃ next, (s.listSchedulable token size).next = some next ∧ Follows (some next) id := by
  obtain rfl : d.id = id := h.id_eq hget
  have hafter : d ∈ s.schedulableAfter token :=
    List.mem_filter.mpr ⟨h.mem_schedulable_iff.mpr ⟨hget, hschedulable⟩, decide_eq_true hfollows⟩
  cases hnext : (s.listSchedulable token size).next with
  | none =>
    rw [← (h.of_next_eq_none hsize hnext).1] at hafter
    exact Or.inl ⟨d, hafter, rfl⟩
  | some next =>
    obtain ⟨_, hleft, _⟩ := h.of_next_eq_some hsize hnext
    rw [← List.take_append_drop size (s.schedulableAfter token), ← hleft,
      ← h.deployments_listSchedulable token hsize] at hafter
    rcases List.mem_append.mp hafter with hlisted | hlater
    · exact Or.inl ⟨d, hlisted, rfl⟩
    · exact Or.inr ⟨next, rfl, of_decide_eq_true (List.mem_filter.mp hlater).2⟩

end Page

end RunScheduler.Store
