import RunScheduler.Proofs.Housekeeping.Family
import RunScheduler.Proofs.Lifecycle.Alone

/-!
# The walk through descendants

A clean-up that is alone with the store takes one run after another off its stack. What is true each
time it does so is `Walked`: the runs cancelled so far are those that had not ended among the
children of the runs visited. Each of the loops keeps this up, from a single child
(`achieves_cancelChild`) to what is below all runs of a page (`achieves_cancelBelow`).

Parents may form circles, so the walk does not follow the tree that they would be. It ends because a
run is visited once: then its children go on the stack and are no longer among those whose parent
was not visited (`toDo_visit`).
-/

namespace RunScheduler

namespace CancellationCleanup

open Script Store

/-- What a run below a cancelled one comes to. -/
def cancelledAt (now : Instant) : State where
  kind := .cancelled
  time := now
  message := some parentCancelledMessage

/-- The store does not fail. -/
def Never (_ : Exchange) : Prop := False

variable {cleanup : CancellationCleanup} {now : Instant} {s s₁ s' : Store}
  {moved : Finset RunId} {w : Walk}

/-- These runs, and no others, were cancelled, and are counted. -/
structure Cancels (now : Instant) (s : Store) (moved : Finset RunId) (s' : Store)
    (stats : PassStats) : Prop where
  entered : Entered (cancelledAt now) moved s s'
  stats_eq : stats = { examined := moved.card, transitioned := moved.card }

theorem canBecome_cancelled {k : StateKind} (h : k.isTerminal = false) :
    k.canBecome .cancelled = true := by
  cases k with
  | completed | failed | crashed | cancelled => cases h
  | _ => rfl

theorem achieves_cancelChild (hs : s.WellFormed) (h : Cancels now s moved s₁ w.stats) {c : Run}
    (hget : s.getRun c.id = some c) (hnew : c.id ∉ moved) :
    Achieves Never s₁ (cleanup.cancelChild now w c) fun _ s' w' =>
      w'.visited = w.visited ∧ w'.stack = c.id :: w.stack ∧
        Cancels now s (moved ∪ ongoingIds [c]) s' w'.stats := by
  rw [cancelChild]
  split_ifs with hended
  · refine .done ⟨rfl, rfl, ?_⟩
    have hnone : ongoingIds [c] = ∅ := by simp [ongoingIds, hended]
    rw [hnone, Finset.union_empty]
    exact h
  · have hongoing : c.state.isTerminal = false := Bool.eq_false_iff.mpr hended
    have hone : moved ∪ ongoingIds [c] = insert c.id moved := by
      have hsingle : ongoingIds [c] = {c.id} := by simp [ongoingIds, hongoing]
      rw [hsingle, Finset.union_comm, ← Finset.insert_eq]
    have hget₁ := (h.entered.getRun_of_notMem hs hnew).trans hget
    have hnext : (cancelledAt now).kind ≠ .running := by
      show StateKind.cancelled ≠ .running
      decide
    have hmove := commit_of_getRun (.ofKind c.kind) hget₁ hnext
    have hmay : c.mayMove (.ofKind c.kind) (cancelledAt now) = true := by
      rw [Run.mayMove, Bool.and_eq_true]
      refine ⟨?_, canBecome_cancelled hongoing⟩
      simp [Expected.ofKind, Expected.holds, Run.kind]
    rw [if_pos hmay] at hmove
    obtain ⟨s₂, hcommit⟩ := hmove
    refine Achieves.bind (Lifecycle.achieves_transition hcommit) fun _ s' outcome hmoves => ?_
    cases hmoves with
    | made =>
      refine .done ⟨rfl, rfl, ?_⟩
      rw [hone]
      refine ⟨h.entered.commit hs hget hnew hcommit, ?_⟩
      rw [h.stats_eq, Finset.card_insert_of_notMem hnew]
      rfl
    | failed hmay => exact hmay.elim

theorem achieves_cancelChildren (hs : s.WellFormed) {runs : List Run}
    (h : Cancels now s moved s₁ w.stats) (hget : ∀ c ∈ runs, s.getRun c.id = some c)
    (hnew : ∀ c ∈ runs, c.id ∉ moved) (hnodup : (runs.map (·.id)).Nodup) :
    Achieves Never s₁ (cleanup.cancelChildren now w runs) fun _ s' w' =>
      w'.visited = w.visited ∧ w'.stack = (runs.map (·.id)).reverse ++ w.stack ∧
        Cancels now s (moved ∪ ongoingIds runs) s' w'.stats := by
  induction runs generalizing moved s₁ w with
  | nil =>
    refine .done ⟨rfl, rfl, ?_⟩
    rwa [ongoingIds_nil, Finset.union_empty]
  | cons c runs ih =>
    rw [cancelChildren]
    refine Achieves.bind (achieves_cancelChild hs h (hget c List.mem_cons_self)
      (hnew c List.mem_cons_self)) ?_
    rintro _ s₂ w₁ ⟨hvisited, hstack, hcancels⟩
    have hnew' : ∀ d ∈ runs, d.id ∉ moved ∪ ongoingIds [c] :=
      notMem_union_ongoingIds hnodup fun d hd => hnew d (List.mem_cons_of_mem _ hd)
    have hlater : (runs.map (·.id)).Nodup := (List.nodup_cons.mp hnodup).2
    refine (ih hcancels (fun d hd => hget d (List.mem_cons_of_mem _ hd)) hnew' hlater).mono ?_
    rintro _ s' w' ⟨hvisited', hstack', hcancels'⟩
    refine ⟨hvisited'.trans hvisited, ?_, ?_⟩
    · rw [hstack', hstack, List.map_cons, List.reverse_cons, List.append_assoc,
        List.singleton_append]
    · rwa [Finset.union_assoc, ← ongoingIds_append, List.singleton_append] at hcancels'

/-- The children of a run are dealt with page by page. Dealing with them does not change their
order, so that each page begins where the one before ended. -/
theorem achieves_children (hs : s.WellFormed) (h : Cancels now s moved s₁ w.stats)
    {parent : RunId} (hnew : ∀ c ∈ s.children parent, c.id ∉ moved) :
    Achieves Never s₁ (repeatFrom (0, w) (cleanup.childrenStep now parent)) fun _ s' outcome =>
      ∃ w', outcome = .ok w' ∧ w'.visited = w.visited ∧
        w'.stack = ((s.children parent).map (·.id)).reverse ++ w.stack ∧
        Cancels now s (moved ∪ ongoingIds (s.children parent)) s' w'.stats := by
  generalize hall : s.children parent = children at hnew
  have hnodup : (children.map (·.id)).Nodup := hall ▸ nodup_ids_selected hs _
  have hstored : ∀ c ∈ children, s.getRun c.id = some c := fun c hc =>
    ((mem_children_iff hs).mp (hall ▸ hc)).1
  have hstart : Cancels now s (moved ∪ ongoingIds (children.take 0)) s₁ w.stats := by
    rwa [List.take_zero, ongoingIds_nil, Finset.union_empty]
  -- Before a round the first `offset` children are cancelled and lie on the stack. They keep their
  -- places, so the next page begins behind them.
  refine Achieves.repeatFrom (fun left _ s' here =>
    left = children.length - here.1 ∧ here.2.visited = w.visited ∧
      here.2.stack = ((children.take here.1).map (·.id)).reverse ++ w.stack ∧
      Cancels now s (moved ∪ ongoingIds (children.take here.1)) s' here.2.stats)
    ⟨rfl, rfl, rfl, hstart⟩ ?_
  rintro _ _ s₂ ⟨offset, w₁⟩ ⟨rfl, hvisited, hstack, hcancels⟩
  refine Achieves.ask ⟨_, s₂, .answered (.query _)⟩ fun reply s₃ hreply => ?_
  obtain ⟨rfl, rfl⟩ := hreply.of_query fun _ _ h => h
  have hlater : ∀ c ∈ children.drop offset, c.id ∉ moved ∪ ongoingIds (children.take offset) :=
    notMem_union_ongoingIds (by rwa [List.take_append_drop]) fun c hc =>
      hnew c (List.mem_of_mem_drop hc)
  have hpage : s₃.query (RunFilter.page { parent := some parent } cleanup.limit offset) =
      (children.drop offset).take cleanup.limit := by
    subst hall
    exact query_children hs hcancels.entered hlater
  rw [hpage]
  generalize hrest : (children.drop offset).take cleanup.limit = page
  have hsublist : page.Sublist children :=
    hrest ▸ (List.take_sublist _ _).trans (List.drop_sublist _ _)
  show Achieves _ _ (Script.bind (cleanup.cancelChildren now w₁ page) _) _
  refine Achieves.bind (achieves_cancelChildren hs hcancels
    (fun c hc => hstored c (hsublist.subset hc))
    (fun c hc => hlater c (List.mem_of_mem_take (hrest ▸ hc)))
    (hnodup.sublist (hsublist.map _))) ?_
  rintro _ s' w' ⟨hvisited', hstack', hcancels'⟩
  have hdone : children.take (offset + cleanup.limit) = children.take offset ++ page := by
    rw [List.take_add, hrest]
  rw [hstack, ← List.append_assoc, ← List.reverse_append, ← List.map_append, ← hdone] at hstack'
  rw [Finset.union_assoc, ← ongoingIds_append, ← hdone] at hcancels'
  have hlength : page.length = min cleanup.limit (children.length - offset) := by
    rw [← hrest, List.length_take, List.length_drop]
  have hlimit : 0 < cleanup.limit := Nat.lt_of_lt_of_le one_pos (le_max_right _ _)
  show Achieves _ _ (if page.length < cleanup.limit then Script.done _ else Script.done _) _
  split_ifs with hlast
  · rw [List.take_of_length_le (by omega)] at hstack' hcancels'
    exact .done ⟨w', rfl, hvisited'.trans hvisited, hstack', hcancels'⟩
  · have hfull : page.length = cleanup.limit := by omega
    refine .done ⟨children.length - (offset + page.length), by omega, rfl,
      hvisited'.trans hvisited, ?_, ?_⟩
    · rwa [hfull]
    · rwa [hfull]

/-! ### The walk -/

/-- The runs that the walk was at or is to come to. -/
def Walk.known (w : Walk) : List RunId := w.visited ++ w.stack

theorem Walk.mem_known {id : RunId} : id ∈ w.known ↔ id ∈ w.visited ∨ id ∈ w.stack :=
  List.mem_append

theorem Walk.mem_visited_of_known (hstack : w.stack = []) {id : RunId} (h : id ∈ w.known) :
    id ∈ w.visited := by
  rw [Walk.mem_known, hstack] at h
  exact h.resolve_right List.not_mem_nil

/-- What is true whenever the walk takes the next run off the stack: those cancelled so far are the
children of the runs visited, all children of these are known, and nothing is known that need not
be. -/
structure Walked (now since : Instant) (s : Store) (moved : Finset RunId) (s' : Store)
    (w : Walk) : Prop where
  cancels : Cancels now s moved s' w.stats
  mem_moved_iff : ∀ id, id ∈ moved ↔ s.Ongoing id ∧ ∃ parent ∈ w.visited, s.ParentOf id parent
  closed : ∀ id, ∀ parent ∈ w.visited, s.ParentOf id parent → id ∈ w.known
  reached : ∀ id ∈ w.known, s.ReachedSince since id

variable {since : Instant} {parent : RunId} {stack : List RunId}

theorem Walk.mem_known_pass (hstack : w.stack = parent :: stack) (hvisited : parent ∈ w.visited)
    {id : RunId} : id ∈ Walk.known { w with stack } ↔ id ∈ w.known := by
  rw [Walk.mem_known, Walk.mem_known, hstack, List.mem_cons]
  constructor
  · exact Or.imp_right Or.inr
  · rintro (hid | rfl | hid)
    · exact Or.inl hid
    · exact Or.inl hvisited
    · exact Or.inr hid

theorem Walked.pass (h : Walked now since s moved s' w) (hstack : w.stack = parent :: stack)
    (hvisited : parent ∈ w.visited) : Walked now since s moved s' { w with stack } where
  cancels := h.cancels
  mem_moved_iff := h.mem_moved_iff
  closed id p hp hid := (Walk.mem_known_pass hstack hvisited).mpr (h.closed id p hp hid)
  reached id hid := h.reached id ((Walk.mem_known_pass hstack hvisited).mp hid)

theorem Walk.mem_known_visit (hs : s.WellFormed) (hstack : w.stack = parent :: stack) {w' : Walk}
    (hvisited' : w'.visited = parent :: w.visited)
    (hstack' : w'.stack = ((s.children parent).map (·.id)).reverse ++ stack) {id : RunId} :
    id ∈ w'.known ↔ id ∈ w.known ∨ s.ParentOf id parent := by
  rw [Walk.mem_known, Walk.mem_known, hvisited', hstack', hstack, List.mem_cons, List.mem_append,
    List.mem_reverse, List.mem_map, exists_mem_children_iff hs, List.mem_cons]
  tauto

theorem Walked.children_notMem (hs : s.WellFormed) (h : Walked now since s moved s' w)
    (hnew : parent ∉ w.visited) : ∀ c ∈ s.children parent, c.id ∉ moved := by
  intro c hc hmem
  obtain ⟨_, p, hp, r, hget, hparent⟩ := (h.mem_moved_iff c.id).mp hmem
  obtain ⟨hget', hparent'⟩ := (mem_children_iff hs).mp hc
  rw [hget] at hget'
  cases hget'
  rw [hparent] at hparent'
  cases hparent'
  exact hnew hp

theorem Walked.visit (hs : s.WellFormed) (h : Walked now since s moved s₁ w)
    (hstack : w.stack = parent :: stack) {w' : Walk}
    (hvisited' : w'.visited = parent :: w.visited)
    (hstack' : w'.stack = ((s.children parent).map (·.id)).reverse ++ stack)
    (hcancels : Cancels now s (moved ∪ ongoingIds (s.children parent)) s' w'.stats) :
    Walked now since s (moved ∪ ongoingIds (s.children parent)) s' w' := by
  have hparent : s.ReachedSince since parent :=
    h.reached parent (Walk.mem_known.mpr (Or.inr (hstack ▸ List.mem_cons_self)))
  have hknown {id : RunId} : id ∈ w'.known ↔ id ∈ w.known ∨ s.ParentOf id parent :=
    Walk.mem_known_visit hs hstack hvisited' hstack'
  refine ⟨hcancels, fun id => ?_, fun id p hp hid => ?_, fun id hid => ?_⟩
  · rw [Finset.mem_union, h.mem_moved_iff, mem_ongoingIds_children_iff hs, hvisited', ← and_or_left]
    simp only [List.mem_cons, exists_eq_or_imp, or_comm]
  · rw [hvisited', List.mem_cons] at hp
    refine hknown.mpr ?_
    rcases hp with rfl | hp
    · exact Or.inr hid
    · exact Or.inl (h.closed id p hp hid)
  · rcases hknown.mp hid with hid | hid
    · exact h.reached id hid
    · exact hparent.child hid

/-- What the walk has left to do: the runs on the stack, and those whose parent it was not at. -/
def toDo (s : Store) (w : Walk) : Nat :=
  w.stack.length + s.inOrder.countP fun r => r.parent.all (· ∉ w.visited)

theorem toDo_pass (hstack : w.stack = parent :: stack) : toDo s { w with stack } < toDo s w := by
  have hless : stack.length < w.stack.length := hstack ▸ Nat.lt_succ_self _
  exact Nat.add_lt_add_right hless _

theorem countP_visit (hnew : parent ∉ w.visited) (runs : List Run) :
    runs.countP (fun r => r.parent.all (· ∉ w.visited)) =
      runs.countP (fun r => r.parent.all (· ∉ parent :: w.visited)) +
        runs.countP (fun r => r.parent == some parent) := by
  induction runs with
  | nil => rfl
  | cons r runs ih =>
    simp only [List.countP_cons, ih]
    cases hparent : r.parent with
    | none => simp; omega
    | some p =>
      by_cases heq : p = parent
      · simp [heq, hnew]; omega
      · simp [heq]; omega

theorem toDo_visit (hs : s.WellFormed) (hstack : w.stack = parent :: stack)
    (hnew : parent ∉ w.visited) {w' : Walk} (hvisited' : w'.visited = parent :: w.visited)
    (hstack' : w'.stack = ((s.children parent).map (·.id)).reverse ++ stack) :
    toDo s w' < toDo s w := by
  have hchildren : (s.children parent).length =
      s.inOrder.countP (fun r => r.parent == some parent) := by
    rw [children, selected_eq_filter hs, ← List.countP_eq_length_filter]
    refine List.countP_congr fun r _ => ?_
    simp [RunFilter.selects]
  rw [toDo, toDo, countP_visit hnew, hvisited', hstack', hstack, List.length_append, List.length_reverse,
    List.length_map, hchildren, List.length_cons]
  omega

theorem achieves_descendants (hs : s.WellFormed) (h : Walked now since s moved s₁ w) :
    Achieves Never s₁ (repeatFrom w (cleanup.descendantsStep now)) fun _ s' outcome =>
      ∃ w' moved', outcome = .ok w' ∧ Walked now since s moved' s' w' ∧ w'.stack = [] ∧
        ∀ id ∈ w.known, id ∈ w'.visited := by
  refine Achieves.repeatFrom (fun left _ s' w' => left = toDo s w' ∧
    (∀ id ∈ w.known, id ∈ w'.known) ∧ ∃ moved', Walked now since s moved' s' w')
    ⟨rfl, fun _ hid => hid, moved, h⟩ ?_
  rintro _ _ s₂ w₁ ⟨rfl, hkept, moved₁, hwalked⟩
  cases hstack : w₁.stack with
  | nil =>
    rw [descendantsStep.eq_def, hstack]
    exact .done ⟨w₁, moved₁, rfl, hwalked, hstack, fun id hid =>
      Walk.mem_visited_of_known hstack (hkept id hid)⟩
  | cons parent stack =>
    rw [descendantsStep.eq_def, hstack]
    dsimp only
    split_ifs with hvisited
    · -- The walk was at this run before.
      rw [List.contains_iff_mem] at hvisited
      refine .done ⟨_, toDo_pass hstack, rfl, fun id hid => ?_, moved₁,
        hwalked.pass hstack hvisited⟩
      exact (Walk.mem_known_pass hstack hvisited).mpr (hkept id hid)
    · rw [List.contains_iff_mem] at hvisited
      have hcancels : Cancels now s moved₁ s₂
          (Walk.stats { w₁ with visited := parent :: w₁.visited, stack }) := hwalked.cancels
      refine Achieves.bind (achieves_children hs hcancels (hwalked.children_notMem hs hvisited)) ?_
      rintro _ s' _ ⟨w', rfl, hvisited', hstack', hcancels'⟩
      have hwalked' := hwalked.visit hs hstack hvisited' hstack' hcancels'
      have hless := toDo_visit hs hstack hvisited hvisited' hstack'
      refine .done ⟨_, hless, rfl, fun id hid => ?_, _, hwalked'⟩
      exact (Walk.mem_known_visit hs hstack hvisited' hstack').mpr (Or.inl (hkept id hid))

/-- Runs that were visited below one of the roots are not visited again below another. -/
theorem achieves_cancelBelow (hs : s.WellFormed) (h : Walked now since s moved s₁ w)
    (hstack : w.stack = []) {roots : List Run}
    (hroots : ∀ root ∈ roots, s.ReachedSince since root.id) :
    Achieves Never s₁ (cleanup.cancelBelow now w roots) fun _ s' outcome =>
      ∃ w' moved', outcome = .ok w' ∧ Walked now since s moved' s' w' ∧ w'.stack = [] ∧
        (∀ id ∈ w.visited, id ∈ w'.visited) ∧ ∀ root ∈ roots, root.id ∈ w'.visited := by
  induction roots generalizing moved s₁ w with
  | nil =>
    exact .done ⟨w, moved, rfl, h, hstack, fun _ hid => hid, fun _ hr =>
      absurd hr List.not_mem_nil⟩
  | cons root roots ih =>
    have hknown {id : RunId} : id ∈ Walk.known { w with stack := [root.id] } ↔
        id ∈ w.known ∨ id = root.id := by
      simp [Walk.mem_known, hstack]
    have hwalked : Walked now since s moved s₁ { w with stack := [root.id] } := by
      refine ⟨h.cancels, h.mem_moved_iff, fun id p hp hid => hknown.mpr (Or.inl ?_),
        fun id hid => ?_⟩
      · exact h.closed id p hp hid
      · rcases hknown.mp hid with hid | rfl
        · exact h.reached id hid
        · exact hroots root List.mem_cons_self
    rw [cancelBelow]
    refine Achieves.bind (achieves_descendants hs hwalked) ?_
    rintro _ s₂ _ ⟨w₁, moved₁, rfl, hwalked₁, hstack₁, hvisited₁⟩
    refine (ih hwalked₁ hstack₁ fun r hr => hroots r (List.mem_cons_of_mem _ hr)).mono ?_
    rintro _ s' _ ⟨w', moved', rfl, hwalked', hstack', hvisited', hroots'⟩
    refine ⟨w', moved', rfl, hwalked', hstack', fun id hid => ?_, fun r hr => ?_⟩
    · exact hvisited' id (hvisited₁ id (hknown.mpr (Or.inl (Walk.mem_known.mpr (Or.inl hid)))))
    · rcases List.mem_cons.mp hr with rfl | hr
      · exact hvisited' _ (hvisited₁ _ (hknown.mpr (Or.inr rfl)))
      · exact hroots' r hr

end CancellationCleanup

end RunScheduler
