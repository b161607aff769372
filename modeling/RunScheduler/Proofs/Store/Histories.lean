import Mathlib.Data.List.Chain
import RunScheduler.Proofs.Store.Operation

/-!
# Histories of runs

The states of a stored run form a path of the table of moves, from where runs of its sort begin
(`Run.FollowsTable`). Whatever is done to the store later, the run is still there, its states so
far are a beginning of its states then, and nothing else of it has changed (`Run.GrowsInto`). A
move is made only from a state that the mover expects, so that of two moves from the same kind of
state one has to follow a return to that kind (`exists_commit_of_kind_ne`).
-/

namespace RunScheduler

namespace Run

/-- The kinds of the run's states are a path of the table of moves. A run with a key begins
scheduled, any other run pending or running. -/
structure FollowsTable (r : Run) : Prop where
  path : (r.states.map (·.kind)).IsChain fun k next => k.canBecome next = true
  start : ∃ first, (r.states.map (·.kind)).head? = some first ∧
    if r.key.isSome then first = .scheduled else first = .pending ∨ first = .running

/-- What a run may become: its states go on, unless it has ended, and all else stays. -/
structure GrowsInto (r r' : Run) : Prop where
  id_eq : r'.id = r.id
  deployment_eq : r'.deployment = r.deployment
  name_eq : r'.name = r.name
  scheduledTime_eq : r'.scheduledTime = r.scheduledTime
  key_eq : r'.key = r.key
  tags_eq : r'.tags = r.tags
  parent_eq : r'.parent = r.parent
  taskKey_eq : r'.taskKey = r.taskKey
  dynamicKey_eq : r'.dynamicKey = r.dynamicKey
  createdAt_eq : r'.createdAt = r.createdAt
  states_prefix : r.states <+: r'.states
  eq_of_isTerminal : r.kind.isTerminal = true → r' = r

/-! ### One move -/

theorem FollowsTable.enter {r : Run} {next : State} (h : r.FollowsTable)
    (hmove : r.kind.canBecome next.kind = true) : (r.enter next).FollowsTable where
  path := by
    have hpath := h.path
    rw [states_enter, states, List.append_assoc]
    rw [states] at hpath
    simp only [List.map_append, List.map_cons, List.map_nil, List.singleton_append] at hpath ⊢
    exact List.isChain_split.mpr ⟨hpath, List.isChain_pair.mpr hmove⟩
  start := by
    obtain ⟨first, hfirst, hkey⟩ := h.start
    refine ⟨first, ?_, hkey⟩
    rw [states_enter, List.map_append, List.head?_append, hfirst, Option.some_or]

theorem FollowsTable.history_eq_nil {r : Run} (h : r.FollowsTable) (hkind : r.kind = .scheduled) :
    r.history = [] := by
  rcases List.eq_nil_or_concat r.history with hnil | ⟨before, last, hlast⟩
  · exact hnil
  · have hpath := h.path
    rw [states, hlast, List.concat_eq_append, List.append_assoc] at hpath
    simp only [List.map_append, List.map_cons, List.map_nil, List.singleton_append] at hpath
    have hmove := List.isChain_pair.mp (List.isChain_split.mp hpath).2
    have hstate : r.state.kind = .scheduled := hkind
    rw [hstate] at hmove
    cases hbefore : last.kind <;> rw [hbefore] at hmove <;> cases hmove

theorem FollowsTable.not_isTerminal {r : Run} (h : r.FollowsTable) (hnew : r.history = []) :
    r.state.isTerminal = false := by
  obtain ⟨first, hfirst, hkey⟩ := h.start
  rw [states, hnew] at hfirst
  cases hfirst
  show r.state.kind.isTerminal = false
  dsimp only at hkey
  split_ifs at hkey
  · rw [hkey]
    rfl
  · rcases hkey with hkey | hkey <;> rw [hkey] <;> rfl

theorem GrowsInto.refl (r : Run) : r.GrowsInto r := by
  refine ⟨rfl, rfl, rfl, rfl, rfl, rfl, rfl, rfl, rfl, rfl, List.prefix_refl _, fun _ => rfl⟩

theorem GrowsInto.trans {r r' r'' : Run} (h : r.GrowsInto r') (h' : r'.GrowsInto r'') :
    r.GrowsInto r'' where
  id_eq := h'.id_eq.trans h.id_eq
  deployment_eq := h'.deployment_eq.trans h.deployment_eq
  name_eq := h'.name_eq.trans h.name_eq
  scheduledTime_eq := h'.scheduledTime_eq.trans h.scheduledTime_eq
  key_eq := h'.key_eq.trans h.key_eq
  tags_eq := h'.tags_eq.trans h.tags_eq
  parent_eq := h'.parent_eq.trans h.parent_eq
  taskKey_eq := h'.taskKey_eq.trans h.taskKey_eq
  dynamicKey_eq := h'.dynamicKey_eq.trans h.dynamicKey_eq
  createdAt_eq := h'.createdAt_eq.trans h.createdAt_eq
  states_prefix := h.states_prefix.trans h'.states_prefix
  eq_of_isTerminal hended := by
    have heq := h.eq_of_isTerminal hended
    rw [h'.eq_of_isTerminal (heq ▸ hended), heq]

theorem GrowsInto.enter {r : Run} {next : State} (hmove : r.kind.canBecome next.kind = true) :
    r.GrowsInto (r.enter next) := by
  refine ⟨rfl, rfl, rfl, rfl, rfl, rfl, rfl, rfl, rfl, rfl, ?_, fun hended => ?_⟩
  · rw [states_enter]
    exact List.prefix_append _ _
  · rw [StateKind.canBecome, (StateKind.next_eq_nil_iff r.kind).mpr hended] at hmove
    cases hmove

end Run

namespace StateKind

theorem not_canBecome_self (k : StateKind) : k.canBecome k = false := by
  cases k <;> decide

end StateKind

theorem Expected.kind_eq_of_holds {expected : Expected} {state : State} {k : StateKind}
    (h : expected.holds state = true) (hk : expected.kind = some k) : state.kind = k := by
  rw [holds, hk, Bool.and_eq_true] at h
  exact of_decide_eq_true h.1

namespace Store

variable {plans : String → PlannedRun → Prop} {s s' : Store}

/-! ### Runs in a changing store -/

theorem Requested.followsTable {r : Run} (h : Requested r) : r.FollowsTable := by
  refine ⟨?_, r.kind, ?_, ?_⟩
  · rw [Run.states, h.history]
    exact List.isChain_singleton _
  · rw [Run.states, h.history]
    rfl
  · rw [h.key]
    exact h.kind

theorem followsTable_toRun (p : PlannedRun) (deployment : String) (id : RunId) :
    (p.toRun deployment id).FollowsTable :=
  ⟨List.isChain_singleton _, .scheduled, rfl, rfl⟩

theorem Change.followsTable (h : ∀ id r, s.getRun id = some r → r.FollowsTable)
    (hchange : Change plans s s') : ∀ id r, s'.getRun id = some r → r.FollowsTable := by
  intro id r hget
  rcases hchange.origin hget with
    hbefore | ⟨_, ⟨d, p, _, _, _, rfl⟩ | ⟨hborn, _⟩⟩ | ⟨before, next, hbefore, _, hmove, rfl⟩
  · exact h id r hbefore
  · exact followsTable_toRun p d id
  · exact hborn.followsTable
  · exact (h id before hbefore).enter hmove

theorem Reachable.followsTable (h : Reachable s) :
    ∀ id r, s.getRun id = some r → r.FollowsTable := by
  refine h.changes.invariant (fun _ hinv hchange => hchange.followsTable hinv) .empty ?_
  intro id r hget
  cases hget

theorem Changes.growsInto (h : Changes plans s s') {id : RunId} {r : Run}
    (hget : s.getRun id = some r) : ∃ r', s'.getRun id = some r' ∧ r.GrowsInto r' := by
  induction h with
  | refl => exact ⟨r, hget, .refl r⟩
  | tail _ hchange ih =>
    obtain ⟨r', hget', hgrows⟩ := ih
    rcases hchange.getRun hget' with hsame | ⟨_, next, hmove, hmoved⟩
    · exact ⟨r', hsame, hgrows⟩
    · exact ⟨_, hmoved, hgrows.trans (.enter hmove)⟩

/-! ### Moves between two states of the same kind -/

theorem Effect.getRun {op : Operation} {result : Store × Outcome} (hfresh : op.Fresh s)
    (h : Effect s op result) {id : RunId} {r : Run} (hget : s.getRun id = some r) :
    result.1.getRun id = some r ∨
      ∃ expected next, op = .commit id expected next ∧ result.2 = .run (r.enter next) ∧
        result.1.getRun id = some (r.enter next) := by
  cases h with
  | deployment => exact Or.inl hget
  | inserted deployment given =>
    left
    have hnot : id ∉ given.map (·.1) := fun hmem => by
      rw [hfresh.2 id hmem] at hget
      cases hget
    rw [getRun_insertRuns_of_notMem hnot, hget]
  | known => exact Or.inl hget
  | @born _ _ _ born s₁ _ hnew hslot =>
    left
    have hne : born.id ≠ id := fun heq => by
      rw [heq, hget] at hnew
      cases hnew
    rw [getRun_putRun, if_neg hne, hslot.getRun_eq, hget]
  | @moved expected next mover s₁ hstored _ _ hslot =>
    rw [getRun_putRun, hslot.getRun_eq]
    by_cases heq : mover.id = id
    · subst heq
      rw [hget] at hstored
      cases hstored
      exact Or.inr ⟨expected, next, rfl, rfl, if_pos rfl⟩
    · exact Or.inl ((if_neg heq).trans hget)
  | rejected => exact Or.inl hget

theorem exists_commit_of_kind_ne {log : List (Operation × Outcome)} {id : RunId} {k : StateKind}
    (hs : s.WellFormed) (h : Performs s log s') {r r' : Run} (hget : s.getRun id = some r)
    (hne : r.kind ≠ k) (hget' : s'.getRun id = some r') (hk : r'.kind = k) :
    ∃ expected next moved, (.commit id expected next, .run moved) ∈ log ∧ next.kind = k := by
  induction h generalizing r with
  | nil =>
    rw [hget] at hget'
    cases hget'
    exact absurd hk hne
  | @cons s s' op log hfresh hrest ih =>
    have heffect := effect_perform hs hfresh
    have hs' := (Performs.cons hfresh (.nil _)).wellFormed hs
    have hlater : (∃ expected next moved, (.commit id expected next, .run moved) ∈ log ∧
        next.kind = k) → ∃ expected next moved,
          (.commit id expected next, .run moved) ∈ (op, (s.perform op).2) :: log ∧ next.kind = k :=
      fun ⟨expected, next, moved, hmem, hkind⟩ =>
        ⟨expected, next, moved, List.mem_cons_of_mem _ hmem, hkind⟩
    rcases heffect.getRun hfresh hget with hsame | ⟨expected, next, rfl, hout, hmoved⟩
    · exact hlater (ih hs' hsame hne hget')
    · by_cases hkind : next.kind = k
      · exact ⟨expected, next, _, by rw [hout]; exact List.mem_cons_self, hkind⟩
      · exact hlater (ih hs' hmoved hkind hget')

theorem Performs.split {log log' : List (Operation × Outcome)} {op : Operation} {out : Outcome}
    (h : Performs s (log ++ (op, out) :: log') s') :
    ∃ s₁, Performs s log s₁ ∧ op.Fresh s₁ ∧ out = (s₁.perform op).2 ∧
      Performs (s₁.perform op).1 log' s' := by
  induction log generalizing s with
  | nil =>
    cases h with
    | cons hfresh hrest => exact ⟨s, .nil s, hfresh, rfl, hrest⟩
  | cons e log ih =>
    cases h with
    | cons hfresh hrest =>
      obtain ⟨s₁, hbefore, hfresh₁, hout, hafter⟩ := ih hrest
      exact ⟨s₁, .cons hfresh hbefore, hfresh₁, hout, hafter⟩

theorem perform_commit_eq_run {id : RunId} {expected : Expected} {next : State} {r : Run}
    (h : (s.perform (.commit id expected next)).2 = .run r) :
    s.commit id expected next = .ok ((s.perform (.commit id expected next)).1, r) := by
  rw [perform] at h ⊢
  cases hcommit : s.commit id expected next with
  | error e => simp [hcommit] at h
  | ok result =>
    simp only [hcommit, Outcome.run.injEq] at h
    rw [← h]

/-- Between two moves of a run from one kind of state, a commit takes it back to that kind. -/
theorem Performs.exists_commit_between {log log' : List (Operation × Outcome)} {id : RunId}
    {expected expected' : Expected} {next next' : State} {r r' : Run} {k : StateKind}
    (hs : s.WellFormed)
    (h : Performs s ((.commit id expected next, .run r) :: log ++
      (.commit id expected' next', .run r') :: log') s')
    (hk : expected.kind = some k) (hk' : expected'.kind = some k) :
    ∃ expected'' next'' moved, (.commit id expected'' next'', .run moved) ∈ log ∧
      next''.kind = k := by
  obtain ⟨s₂, hbetween, _, hout₂, _⟩ := h.split
  generalize hout₁ : Outcome.run r = first at hbetween
  cases hbetween with
  | cons hfresh hlog =>
    have hs₁ := (Performs.cons hfresh (.nil _)).wellFormed hs
    obtain ⟨before, hget, hholds, hmove, rfl, s₁, _, hstored⟩ :=
      change_of_commit hs (perform_commit_eq_run hout₁.symm)
    obtain ⟨before', hget', hholds', _⟩ :=
      change_of_commit (hlog.wellFormed hs₁) (perform_commit_eq_run hout₂.symm)
    -- The first move leaves `k`, which the second expects again.
    have hleft : (before.enter next).kind ≠ k := by
      intro heq
      have hbefore : before.kind = k := Expected.kind_eq_of_holds hholds hk
      have hnext : next.kind = k := heq
      rw [hbefore, hnext, StateKind.not_canBecome_self] at hmove
      cases hmove
    have hmoved : s₁.putRun (before.enter next) = (s.perform (.commit id expected next)).1 :=
      hstored.symm
    refine exists_commit_of_kind_ne hs₁ hlog ?_ hleft hget' (Expected.kind_eq_of_holds hholds' hk')
    rw [← hmoved, getRun_putRun]
    exact if_pos (hs.id_eq hget)

/-! ### Histories -/

theorem history_of_commit (hs : s.WellFormed) {id : RunId} {expected : Expected} {next : State}
    {r' : Run} (h : s.commit id expected next = .ok (s', r')) :
    ∃ r, s.getRun id = some r ∧ expected.holds r.state = true ∧
      r'.history = r.history ++ [r.state] ∧ r'.state = next ∧ s'.getRun id = some r' ∧
      ∀ other, other ≠ id → s'.getRun other = s.getRun other := by
  obtain ⟨r, hget, hholds, _, rfl, s₁, hslot, rfl⟩ := change_of_commit hs h
  have hid : r.id = id := hs.id_eq hget
  refine ⟨r, hget, hholds, rfl, rfl, ?_, fun other hother => ?_⟩
  · rw [getRun_putRun]
    exact if_pos hid
  · rw [getRun_putRun, hslot.getRun_eq]
    exact if_neg fun heq => hother (heq.symm.trans hid)

/-- **Histories are paths, and only grow.** In every store that operations lead to:

* the states of a run follow the table of moves;
* later operations keep every run, and only let its states go on;
* a commit that succeeds adds one state to the history of its run, a state that it expects, and
  between two that expect the same kind of state a commit has taken the run back to that kind;
* a commit that is rejected changes nothing, nor does the creation of a run with a known id. -/
theorem histories_of_reachable (h : Reachable s) :
    (∀ id r, s.getRun id = some r → r.FollowsTable) ∧
    (∀ log s', Performs s log s' → ∀ id r, s.getRun id = some r →
      ∃ r', s'.getRun id = some r' ∧ r.GrowsInto r') ∧
    (∀ id expected next s' r', s.commit id expected next = .ok (s', r') →
      ∃ r, s.getRun id = some r ∧ expected.holds r.state = true ∧
        r'.history = r.history ++ [r.state] ∧ r'.state = next ∧ s'.getRun id = some r' ∧
        ∀ other, other ≠ id → s'.getRun other = s.getRun other) ∧
    (∀ id expected expected' next next' r r' k log log' s',
      Performs s ((.commit id expected next, .run r) :: log ++
        (.commit id expected' next', .run r') :: log') s' →
      expected.kind = some k → expected'.kind = some k →
      ∃ expected'' next'' moved, (.commit id expected'' next'', .run moved) ∈ log ∧
        next''.kind = k) ∧
    (∀ id expected next e, s.commit id expected next = .error e →
      s.perform (.commit id expected next) = (s, .rejected e)) ∧
    (∀ request now freshId id r, request.id = some id → s.getRun id = some r →
      s.perform (.create request now freshId) = (s, .run r)) := by
  have hs := h.wellFormed
  refine ⟨h.followsTable, fun log s' hlog id r hget => (hlog.changes hs).growsInto hget,
    fun id expected next s' r' hcommit => history_of_commit hs hcommit,
    fun id expected expected' next next' r r' k log log' s' hlog hk hk' =>
      hlog.exists_commit_between hs hk hk', fun id expected next e hcommit => ?_,
    fun request now freshId id r hid hget => ?_⟩
  · rw [perform, hcommit]
  · have hcreate : s.create request now freshId = .ok (s, r) := by
      rw [create, hid, Option.bind_some, hget]
    rw [perform, hcreate]

/-- A store with one run, which is running. -/
def oneRunning : Store :=
  (empty.perform (.create { id := some ⟨1⟩, state := some { kind := .running, time := .epoch } }
    .epoch ⟨1⟩)).1

theorem reachable_oneRunning : Reachable oneRunning := by
  refine Reachable.empty.perform ?_
  intro h
  cases h

def pause : Operation :=
  .commit ⟨1⟩ (.ofKind .running) { kind := .paused, time := .epoch }

def resume : Operation :=
  .commit ⟨1⟩ .any { kind := .running, time := .epoch }

/-- The run is paused, resumed and paused again. -/
theorem histories_of_pause_resume_pause :
    Reachable oneRunning ∧
    ∃ s r r' resumed, Performs oneRunning [(pause, .run r), (resume, .run resumed),
        (pause, .run r')] s ∧ r.history.length = 1 ∧ r'.history.length = 3 ∧
      ∃ expected next moved, (Operation.commit ⟨1⟩ expected next, Outcome.run moved) ∈
        [(resume, Outcome.run resumed)] ∧ next.kind = .running := by
  have hreach := reachable_oneRunning
  have hlog : ∃ s r r' resumed, Performs oneRunning [(pause, .run r), (resume, .run resumed),
      (pause, .run r')] s ∧ r.history.length = 1 ∧ r'.history.length = 3 :=
    ⟨_, _, _, _, .cons trivial (.cons trivial (.cons trivial (.nil _))), rfl, rfl⟩
  obtain ⟨s, r, r', resumed, hlog, hlength, hlength'⟩ := hlog
  obtain ⟨_, _, _, hbetween, _⟩ := histories_of_reachable hreach
  have hresumed := hbetween _ _ _ _ _ _ _ _ [(resume, .run resumed)] [] s hlog rfl rfl
  exact ⟨hreach, s, r, r', resumed, hlog, hlength, hlength', hresumed⟩

end Store

end RunScheduler
