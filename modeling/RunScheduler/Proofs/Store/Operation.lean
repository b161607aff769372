import RunScheduler.Proofs.Store.Change

/-!
# Operations on a store

Clients act on a store by operations, each of which takes effect at once (`Operation`,
`Store.perform`); whatever several clients do at a time comes down to one sequence of operations
(`Store.Performs`). The ids of new runs are given with an operation and have to be new
(`Operation.Fresh`). An operation amounts to changes of the store (`changes_perform`), and a
rejected one to none.
-/

namespace RunScheduler

inductive Operation
  | putDeployment (d : Deployment)
  /-- Planned runs of a deployment, each with the id it gets if it is stored. -/
  | insertRuns (deployment : String) (given : List (RunId × PlannedRun))
  /-- A run is asked for, at a time and with an id in case the request has none. -/
  | create (request : RunRequest) (now : Instant) (freshId : RunId)
  | commit (run : RunId) (expected : Expected) (next : State)

/-- What an operation gives back. -/
inductive Outcome
  | stored
  | inserted (count : Nat)
  | run (r : Run)
  | rejected (e : StoreError)

/-- The ids that the operation was given for new runs are not in use, and are given once. -/
def Operation.Fresh (s : Store) : Operation → Prop
  | .insertRuns _ given =>
    (given.map (·.1)).Nodup ∧ ∀ id ∈ given.map (·.1), s.getRun id = none
  | .create request _ freshId => request.id = none → s.getRun freshId = none
  | .putDeployment _ => True
  | .commit .. => True

namespace Store

/-- The store after an operation, and what the operation gives back. -/
def perform (s : Store) : Operation → Store × Outcome
  | .putDeployment d => (s.putDeployment d, .stored)
  | .insertRuns deployment given =>
    ((s.insertRuns deployment given).1, .inserted (s.insertRuns deployment given).2)
  | .create request now freshId =>
    match s.create request now freshId with
    | .ok (s', r) => (s', .run r)
    | .error e => (s, .rejected e)
  | .commit id expected next =>
    match s.commit id expected next with
    | .ok (s', r) => (s', .run r)
    | .error e => (s, .rejected e)

/-- A sequence of operations with fresh ids leads from one store to another; the log holds them
with what each gave back. -/
inductive Performs : Store → List (Operation × Outcome) → Store → Prop
  | nil (s : Store) : Performs s [] s
  | cons {s s' : Store} {op : Operation} {log : List (Operation × Outcome)}
      (hfresh : op.Fresh s) (h : Performs (s.perform op).1 log s') :
      Performs s ((op, (s.perform op).2) :: log) s'

/-- A store that operations can lead to from the empty one. -/
def Reachable (s : Store) : Prop :=
  ∃ log, Performs empty log s

/-! ### What each operation changes -/

variable {plans : String → PlannedRun → Prop} {s s' : Store}

theorem insertRuns_cons (s : Store) (deployment : String) (id : RunId) (p : PlannedRun)
    (given : List (RunId × PlannedRun)) :
    s.insertRuns deployment ((id, p) :: given) =
      if s.runKeys.contains (keyEntry deployment p.key) then s.insertRuns deployment given
      else (((s.storePlanned deployment id p).insertRuns deployment given).1,
        ((s.storePlanned deployment id p).insertRuns deployment given).2 + 1) := by
  rw [insertRuns, insertPlanned_eq]
  split_ifs <;> rfl

theorem changes_insertRuns {deployment : String} {given : List (RunId × PlannedRun)}
    (hplans : ∀ e ∈ given, plans deployment e.2) (hnodup : (given.map (·.1)).Nodup)
    (hnew : ∀ id ∈ given.map (·.1), s.getRun id = none) :
    Changes plans s (s.insertRuns deployment given).1 := by
  induction given generalizing s with
  | nil => exact .refl
  | cons e given ih =>
    obtain ⟨id, p⟩ := e
    rw [List.map_cons, List.nodup_cons] at hnodup
    have hplans' : ∀ e ∈ given, plans deployment e.2 := fun e h =>
      hplans e (List.mem_cons_of_mem _ h)
    have hnew' : ∀ other ∈ given.map (·.1), s.getRun other = none := fun other h =>
      hnew other (List.mem_cons_of_mem _ h)
    rw [insertRuns_cons]
    split_ifs with hkey
    · exact ih hplans' hnodup.2 hnew'
    · refine Relation.ReflTransGen.head ?_ (ih hplans' hnodup.2 fun other h => ?_)
      · exact .plan (hplans (id, p) List.mem_cons_self) (hnew id List.mem_cons_self)
          (Bool.eq_false_iff.mpr hkey)
      · have hne : id ≠ other := by
          rintro rfl
          exact hnodup.1 h
        rw [getRun_storePlanned, if_neg hne]
        exact hnew' other h

theorem getRun_insertRuns {deployment : String} {given : List (RunId × PlannedRun)} {id : RunId}
    {r : Run} (h : (s.insertRuns deployment given).1.getRun id = some r) :
    s.getRun id = some r ∨ ∃ p, (id, p) ∈ given ∧ r = p.toRun deployment id := by
  induction given generalizing s with
  | nil => exact Or.inl h
  | cons e given ih =>
    obtain ⟨new, p⟩ := e
    rw [insertRuns_cons] at h
    have hlater : (∃ p', (id, p') ∈ given ∧ r = p'.toRun deployment id) →
        ∃ p', (id, p') ∈ (new, p) :: given ∧ r = p'.toRun deployment id :=
      fun ⟨p', hmem, hr⟩ => ⟨p', List.mem_cons_of_mem _ hmem, hr⟩
    split_ifs at h with hkey
    · exact (ih h).imp_right hlater
    · rcases ih h with hfirst | hrest
      · rw [getRun_storePlanned] at hfirst
        split_ifs at hfirst with heq
        · subst heq
          exact Or.inr ⟨p, List.mem_cons_self, (Option.some.inj hfirst).symm⟩
        · exact Or.inl hfirst
      · exact Or.inr (hlater hrest)

theorem getRun_insertRuns_of_notMem {deployment : String} {given : List (RunId × PlannedRun)}
    {id : RunId} (h : id ∉ given.map (·.1)) :
    (s.insertRuns deployment given).1.getRun id = s.getRun id := by
  induction given generalizing s with
  | nil => rfl
  | cons e given ih =>
    obtain ⟨new, p⟩ := e
    rw [List.map_cons, List.mem_cons, not_or] at h
    rw [insertRuns_cons]
    split_ifs with hkey
    · exact ih h.2
    · refine (ih h.2).trans ?_
      rw [getRun_storePlanned, if_neg (Ne.symm h.1)]

theorem contains_storePlanned {deployment entry : String} {id : RunId} {p : PlannedRun} :
    (s.storePlanned deployment id p).runKeys.contains entry = true ↔
      keyEntry deployment p.key = entry ∨ s.runKeys.contains entry = true := by
  rw [Table.contains_eq, Table.contains_eq, storePlanned, Table.get?_insert]
  split_ifs with heq <;> simp [heq]

theorem contains_insertRuns {deployment : String} {given : List (RunId × PlannedRun)}
    {entry : String} :
    (s.insertRuns deployment given).1.runKeys.contains entry = true ↔
      s.runKeys.contains entry = true ∨ ∃ e ∈ given, keyEntry deployment e.2.key = entry := by
  induction given generalizing s with
  | nil => simp [insertRuns]
  | cons e given ih =>
    obtain ⟨id, p⟩ := e
    rw [insertRuns_cons]
    simp only [List.mem_cons, exists_eq_or_imp]
    split_ifs with hkey
    · rw [ih]
      constructor
      · exact fun h => h.imp_right Or.inr
      · rintro (h | rfl | h)
        · exact Or.inl h
        · exact Or.inl hkey
        · exact Or.inr h
    · rw [ih, contains_storePlanned, or_comm (a := keyEntry deployment p.key = entry), or_assoc]

theorem length_insertRuns {deployment : String} {given : List (RunId × PlannedRun)}
    (hnodup : (given.map (·.1)).Nodup) (hnew : ∀ id ∈ given.map (·.1), s.getRun id = none) :
    (s.insertRuns deployment given).1.runs.entries.length =
      s.runs.entries.length + (s.insertRuns deployment given).2 := by
  induction given generalizing s with
  | nil => rfl
  | cons e given ih =>
    obtain ⟨id, p⟩ := e
    rw [List.map_cons, List.nodup_cons] at hnodup
    have hnew' : ∀ other ∈ given.map (·.1), s.getRun other = none := fun other h =>
      hnew other (List.mem_cons_of_mem _ h)
    rw [insertRuns_cons]
    split_ifs with hkey
    · exact ih hnodup.2 hnew'
    · have hadded : (s.storePlanned deployment id p).runs.entries.length =
          s.runs.entries.length + 1 :=
        Table.length_insert (hnew id List.mem_cons_self) _
      have hrest := ih (s := s.storePlanned deployment id p) hnodup.2 fun other h => by
        have hne : id ≠ other := by
          rintro rfl
          exact hnodup.1 h
        rw [getRun_storePlanned, if_neg hne]
        exact hnew' other h
      rw [hrest, hadded]
      omega

theorem change_of_commit (hs : s.WellFormed) {id : RunId} {expected : Expected} {next : State}
    {r : Run} (h : s.commit id expected next = .ok (s', r)) :
    ∃ before, s.getRun id = some before ∧ expected.holds before.state = true ∧
      before.kind.canBecome next.kind = true ∧ r = before.enter next ∧
      ∃ s₁, SlotMove s before.deployment before.id (some before.kind) next.kind s₁ ∧
        s' = s₁.putRun r := by
  rw [commit.eq_def] at h
  cases hget : s.getRun id with
  | none => simp [hget] at h
  | some before =>
    simp only [hget] at h
    rw [Run.move] at h
    split_ifs at h with hmay
    cases hslot : s.moveSlot (before.enter next).deployment id (some before.kind)
        (before.enter next).kind with
    | error e => simp [hslot] at h
    | ok s₁ =>
      simp only [hslot, Except.ok.injEq, Prod.mk.injEq] at h
      rw [Run.mayMove, Bool.and_eq_true] at hmay
      have hmoved := slotMove_of_moveSlot hslot
      rw [← hs.id_eq hget] at hmoved
      exact ⟨before, rfl, hmay.1, hmay.2, h.2.symm, s₁, hmoved, by rw [← h.1, h.2]⟩

theorem exists_moveSlot (s : Store) (deployment : Option String) (id : RunId)
    (from? : Option StateKind) {target : StateKind} (h : target ≠ .running) :
    ∃ s', s.moveSlot deployment id from? target = .ok s' := by
  rw [moveSlot.eq_def]
  cases deployment with
  | none => exact ⟨s, rfl⟩
  | some d =>
    dsimp only
    rw [if_neg fun hstarts => h hstarts.1]
    split_ifs
    · exact ⟨_, rfl⟩
    · exact ⟨_, rfl⟩

theorem commit_of_getRun {id : RunId} {next : State} {r : Run} (expected : Expected)
    (hget : s.getRun id = some r) (hnext : next.kind ≠ .running) :
    if r.mayMove expected next then ∃ s', s.commit id expected next = .ok (s', r.enter next)
    else s.commit id expected next = .error (.illegalMove r.id (some r.kind) next.kind) := by
  have hkind : (r.enter next).kind ≠ .running := hnext
  obtain ⟨s₁, hslot⟩ := exists_moveSlot s (r.enter next).deployment id (some r.kind) hkind
  split_ifs with hmay
  · refine ⟨s₁.putRun (r.enter next), ?_⟩
    simp only [commit, hget, Run.move, hmay, if_true, hslot]
  · simp only [commit, hget, Run.move, hmay, if_false, Bool.false_eq_true]

theorem requested_of_toRun {request : RunRequest} {now : Instant} {freshId : RunId} {r : Run}
    (h : request.toRun now freshId = .ok r) : Requested r ∧ r.id = request.id.getD freshId := by
  rw [RunRequest.toRun] at h
  split_ifs at h with hkind
  cases h
  exact ⟨⟨hkind, rfl, rfl⟩, rfl⟩

theorem change_of_create {request : RunRequest} {now : Instant} {freshId : RunId} {r : Run}
    (hfresh : request.id = none → s.getRun freshId = none)
    (h : s.create request now freshId = .ok (s', r)) :
    (∃ id, request.id = some id ∧ s.getRun id = some r ∧ s' = s) ∨
      Requested r ∧ s.getRun r.id = none ∧
        ∃ s₁, SlotMove s r.deployment r.id none r.kind s₁ ∧ s' = s₁.putRun r := by
  rw [create.eq_def] at h
  cases hknown : request.id.bind s.getRun with
  | some existing =>
    simp only [hknown, Except.ok.injEq, Prod.mk.injEq] at h
    obtain ⟨id, hid, hget⟩ := Option.bind_eq_some_iff.mp hknown
    exact Or.inl ⟨id, hid, h.2 ▸ hget, h.1.symm⟩
  | none =>
    right
    simp only [hknown] at h
    cases hrun : request.toRun now freshId with
    | error e => simp [hrun] at h
    | ok run =>
      cases hslot : s.moveSlot run.deployment run.id none run.kind with
      | error e => simp [hrun, hslot] at h
      | ok s₁ =>
        simp only [hrun, hslot, Except.ok.injEq, Prod.mk.injEq] at h
        obtain ⟨rfl, rfl⟩ := h
        obtain ⟨hborn, hid⟩ := requested_of_toRun hrun
        refine ⟨hborn, ?_, s₁, slotMove_of_moveSlot hslot, rfl⟩
        rw [hid]
        cases hrequest : request.id with
        | none => exact hfresh hrequest
        | some id => rwa [hrequest] at hknown

/-- What an operation can do, with what it checks. -/
inductive Effect (s : Store) : Operation → Store × Outcome → Prop
  | deployment (d : Deployment) : Effect s (.putDeployment d) (s.putDeployment d, .stored)
  | inserted (deployment : String) (given : List (RunId × PlannedRun)) :
      Effect s (.insertRuns deployment given)
        ((s.insertRuns deployment given).1, .inserted (s.insertRuns deployment given).2)
  | known {request : RunRequest} {now : Instant} {freshId id : RunId} {r : Run}
      (hid : request.id = some id) (hget : s.getRun id = some r) :
      Effect s (.create request now freshId) (s, .run r)
  | born {request : RunRequest} {now : Instant} {freshId : RunId} {r : Run} {s₁ : Store}
      (hborn : Requested r) (hnew : s.getRun r.id = none)
      (hslot : SlotMove s r.deployment r.id none r.kind s₁) :
      Effect s (.create request now freshId) (s₁.putRun r, .run r)
  | moved {expected : Expected} {next : State} {r : Run} {s₁ : Store}
      (hstored : s.getRun r.id = some r) (hexpected : expected.holds r.state = true)
      (hmove : r.kind.canBecome next.kind = true)
      (hslot : SlotMove s r.deployment r.id (some r.kind) next.kind s₁) :
      Effect s (.commit r.id expected next) (s₁.putRun (r.enter next), .run (r.enter next))
  | rejected (op : Operation) (e : StoreError) : Effect s op (s, .rejected e)

/-- No operation does anything else. -/
theorem effect_perform (hs : s.WellFormed) {op : Operation} (hfresh : op.Fresh s) :
    Effect s op (s.perform op) := by
  cases op with
  | putDeployment d => exact .deployment d
  | insertRuns deployment given => exact .inserted deployment given
  | create request now freshId =>
    rw [perform]
    cases h : s.create request now freshId with
    | error e => exact .rejected _ e
    | ok result =>
      obtain ⟨s', r⟩ := result
      rcases change_of_create hfresh h with ⟨id, hid, hget, rfl⟩ | ⟨hborn, hnew, s₁, hslot, rfl⟩
      · exact .known hid hget
      · exact .born hborn hnew hslot
  | commit id expected next =>
    rw [perform]
    cases h : s.commit id expected next with
    | error e => exact .rejected _ e
    | ok result =>
      obtain ⟨s', r⟩ := result
      obtain ⟨before, hget, hexpected, hmove, rfl, s₁, hslot, rfl⟩ := change_of_commit hs h
      have hid := hs.id_eq hget
      subst hid
      exact .moved hget hexpected hmove hslot

theorem changes_perform (hs : s.WellFormed) {op : Operation} (hfresh : op.Fresh s)
    (hplans : ∀ deployment given, op = .insertRuns deployment given →
      ∀ e ∈ given, plans deployment e.2) :
    Changes plans s (s.perform op).1 := by
  have heffect := effect_perform hs hfresh
  generalize s.perform op = result at heffect
  cases heffect with
  | deployment d => exact .single (.deployment d)
  | inserted deployment given =>
    exact changes_insertRuns (hplans deployment given rfl) hfresh.1 hfresh.2
  | known => exact .refl
  | born hborn hnew hslot => exact .single (.birth hborn hnew hslot)
  | moved hstored _ hmove hslot => exact .single (.move hstored hmove hslot)
  | rejected => exact .refl

theorem Performs.changes {log : List (Operation × Outcome)} (hs : s.WellFormed)
    (h : Performs s log s') : Changes (fun _ _ => True) s s' := by
  induction h with
  | nil => exact .refl
  | @cons s _ op _ hfresh _ ih =>
    have hchanges : Changes (fun _ _ => True) s (s.perform op).1 :=
      changes_perform hs hfresh fun _ _ _ _ _ => trivial
    exact hchanges.trans (ih (hchanges.wellFormed hs))

theorem Performs.wellFormed {log : List (Operation × Outcome)} (hs : s.WellFormed)
    (h : Performs s log s') : s'.WellFormed :=
  (h.changes hs).wellFormed hs

theorem Reachable.wellFormed (h : Reachable s) : s.WellFormed :=
  h.choose_spec.wellFormed .empty

theorem Reachable.changes (h : Reachable s) : Changes (fun _ _ => True) empty s :=
  h.choose_spec.changes .empty

theorem Performs.append {s₁ : Store} {log log' : List (Operation × Outcome)}
    (h : Performs s log s₁) (h' : Performs s₁ log' s') : Performs s (log ++ log') s' := by
  induction h with
  | nil => exact h'
  | cons hfresh _ ih => exact .cons hfresh (ih h')

theorem Reachable.empty : Reachable empty := ⟨[], .nil _⟩

theorem Reachable.perform (h : Reachable s) {op : Operation} (hfresh : op.Fresh s) :
    Reachable (s.perform op).1 := by
  obtain ⟨log, hlog⟩ := h
  exact ⟨_, hlog.append (.cons hfresh (.nil _))⟩

end Store

end RunScheduler
