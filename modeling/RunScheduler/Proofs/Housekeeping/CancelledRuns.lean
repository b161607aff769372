import RunScheduler.Proofs.Housekeeping.Descendants

/-!
# Clean-ups that are alone with the store

A pass asks for the cancelled runs page by page while it cancels more of them, and these may come
anywhere in the order. It passes over none all the same: what comes in between has been visited by
then, and a run that was not visited can only move back behind the runs that were
(`Walked.visited_of_mem_take`). So by its end the pass has visited all cancelled runs, and has
cancelled all that was below them (`cancels_all_below`).
-/

namespace RunScheduler

namespace CancellationCleanup

open Script Store

variable {cleanup : CancellationCleanup} {now since : Instant} {s s₁ s' : Store}
  {moved : Finset RunId} {w : Walk}

/-! ### Pages of cancelled runs -/

theorem forall_mem_take_filter {α : Type} {p q : α → Bool} {seen : α → Prop} {l : List α}
    (hmore : ∀ a ∈ l, p a = true → q a = true) (hnew : ∀ a ∈ l, q a = true → p a = true ∨ seen a)
    {n : Nat} (h : ∀ a ∈ (l.filter p).take n, seen a) : ∀ a ∈ (l.filter q).take n, seen a := by
  induction l generalizing n with
  | nil => exact h
  | cons b l ih =>
    have hmore' := fun a ha => hmore a (List.mem_cons_of_mem b ha)
    have hnew' := fun a ha => hnew a (List.mem_cons_of_mem b ha)
    by_cases hq : q b = true
    · cases n with
      | zero => exact fun a ha => absurd ha List.not_mem_nil
      | succ n =>
        rw [List.filter_cons_of_pos hq, List.take_succ_cons]
        by_cases hp : p b = true
        · rw [List.filter_cons_of_pos hp, List.take_succ_cons] at h
          obtain ⟨hb, hrest⟩ := List.forall_mem_cons.mp h
          exact List.forall_mem_cons.mpr ⟨hb, ih hmore' hnew' hrest⟩
        · -- The new element moves those behind it back by one.
          rw [List.filter_cons_of_neg hp] at h
          have hb := (hnew b List.mem_cons_self hq).resolve_left hp
          refine List.forall_mem_cons.mpr ⟨hb, ih hmore' hnew' fun a ha => ?_⟩
          exact h a ((List.take_prefix_take_left (Nat.le_succ n)).subset ha)
    · have hp : ¬ p b = true := fun hp => hq (hmore b List.mem_cons_self hp)
      rw [List.filter_cons_of_neg hp] at h
      rw [List.filter_cons_of_neg hq]
      exact ih hmore' hnew' h

/-- The filter of a pass. -/
def lately (since : Instant) : RunFilter where
  kinds := [.cancelled]
  updatedSince := some since

theorem selects_lately_iff {r : Run} :
    (lately since).selects r = true ↔ r.kind = .cancelled ∧ since ≤ r.updatedAt := by
  simp [lately, RunFilter.selects]

theorem Walked.reached_of_mem_moved (h : Walked now since s moved s' w) {id : RunId}
    (hid : id ∈ moved) : s.ReachedSince since id := by
  obtain ⟨_, parent, hp, hparent⟩ := (h.mem_moved_iff id).mp hid
  exact (h.reached parent (Walk.mem_known.mpr (Or.inl hp))).child hparent

theorem Walked.reached_of_lately (hs : s.WellFormed) (h : Walked now since s moved s' w) {r : Run}
    (hr : r ∈ s'.selected (lately since)) : s.ReachedSince since r.id := by
  obtain ⟨hget, hselects⟩ := (mem_selected_iff h.cancels.entered.wellFormed).mp hr
  by_cases hmem : r.id ∈ moved
  · exact h.reached_of_mem_moved hmem
  · rw [h.cancels.entered.getRun_of_notMem hs hmem] at hget
    exact ⟨r.id, .refl, r, hget, selects_lately_iff.mp hselects⟩

theorem Walked.notMem_moved (h : Walked now since s moved s' w) {r : Run}
    (hget : s.getRun r.id = some r) (hkind : r.kind = .cancelled) : r.id ∉ moved := by
  intro hmem
  obtain ⟨⟨r', hget', hongoing⟩, _⟩ := (h.mem_moved_iff r.id).mp hmem
  rw [hget] at hget'
  cases hget'
  rw [State.isTerminal, show r.state.kind = .cancelled from hkind] at hongoing
  cases hongoing

theorem Walked.visited_of_mem_moved (h : Walked now since s moved s' w) (hstack : w.stack = [])
    {id : RunId} (hid : id ∈ moved) : id ∈ w.visited := by
  obtain ⟨_, parent, hp, hparent⟩ := (h.mem_moved_iff id).mp hid
  exact Walk.mem_visited_of_known hstack (h.closed id parent hp hparent)

/-- The first part of what is selected stays visited when a pass goes on: what is selected anew has
been visited by then. -/
theorem Walked.visited_of_mem_take (hs : s.WellFormed) (h : Walked now since s moved s₁ w)
    {w' : Walk} {moved' : Finset RunId} (h' : Walked now since s moved' s' w')
    (hstack' : w'.stack = []) (hmono : ∀ id ∈ w.visited, id ∈ w'.visited) {n : Nat}
    (hfirst : ∀ r ∈ (s₁.selected (lately since)).take n, r.id ∈ w'.visited) :
    ∀ r ∈ (s'.selected (lately since)).take n, r.id ∈ w'.visited := by
  have hsubset : moved ⊆ moved' := fun id hid => by
    obtain ⟨hongoing, parent, hp, hparent⟩ := (h.mem_moved_iff id).mp hid
    exact (h'.mem_moved_iff id).mpr ⟨hongoing, parent, hmono parent hp, hparent⟩
  have hids {moved : Finset RunId} {seen : RunId → Prop} {runs : List Run} :
      (∀ r ∈ (runs.map (·.entered (cancelledAt now) moved)).take n, seen r.id) ↔
        ∀ r ∈ runs.take n, seen r.id := by
    simp [← List.map_take]
  rw [selected_of_entered hs h.cancels.entered, hids] at hfirst
  rw [selected_of_entered hs h'.cancels.entered, hids]
  refine forall_mem_take_filter (fun r hr hbefore => ?_) (fun r hr hafter => ?_) hfirst
  · by_cases hmem : r.id ∈ moved
    · rwa [Run.entered_of_mem (hsubset hmem), ← Run.entered_of_mem hmem]
    · rw [Run.entered_of_notMem hmem] at hbefore
      have hkind := (selects_lately_iff.mp hbefore).1
      rwa [Run.entered_of_notMem (h'.notMem_moved ((mem_inOrder_iff hs).mp hr) hkind)]
  · by_cases hmem : r.id ∈ moved'
    · exact Or.inr (h'.visited_of_mem_moved hstack' hmem)
    · rw [Run.entered_of_notMem hmem] at hafter
      rw [Run.entered_of_notMem fun hmoved => hmem (hsubset hmoved)]
      exact Or.inl hafter

theorem Walked.start (hs : s.WellFormed) : Walked now since s ∅ s {} := by
  refine ⟨⟨.refl hs _, rfl⟩, fun id => ?_, fun _ _ hp => absurd hp List.not_mem_nil,
    fun _ hid => absurd hid List.not_mem_nil⟩
  simp

theorem Walked.visited_of_cancelledSince (hs : s.WellFormed) (h : Walked now since s moved s' w)
    {visited : List RunId} (hall : ∀ r ∈ s'.selected (lately since), r.id ∈ visited) {id : RunId}
    (hid : s.CancelledSince since id) : id ∈ visited := by
  obtain ⟨r, hget, hkind, hsince⟩ := hid
  obtain rfl := hs.id_eq hget
  have hnot := h.notMem_moved hget hkind
  refine hall r ((mem_selected_iff h.cancels.entered.wellFormed).mpr ⟨?_, ?_⟩)
  · exact (h.cancels.entered.getRun_of_notMem hs hnot).trans hget
  · exact selects_lately_iff.mpr ⟨hkind, hsince⟩

theorem Walked.length_selected_le (hs : s.WellFormed) (h : Walked now since s moved s' w)
    (filter : RunFilter) : (s'.selected filter).length ≤ s.inOrder.length := by
  rw [selected_of_entered hs h.cancels.entered, List.length_map]
  exact List.length_filter_le _ _

theorem achieves_pages (hs : s.WellFormed) :
    Achieves Never s (repeatFrom (0, {}) (cleanup.passStep now since)) fun _ s' outcome =>
      ∃ w moved, outcome = .ok w ∧ Walked now since s moved s' w ∧ w.stack = [] ∧
        ∀ id, s.CancelledSince since id → id ∈ w.visited := by
  have hfirst : ∀ r ∈ (s.selected (lately since)).take 0, r.id ∈ ({} : Walk).visited :=
    fun _ hr => absurd hr List.not_mem_nil
  -- Before a round all that precedes the offset has been visited. The list may grow meanwhile, but
  -- not beyond the runs there are, so the offset comes to its end.
  refine Achieves.repeatFrom (fun left _ s' here =>
    left = s.inOrder.length - here.1 ∧ here.2.stack = [] ∧
      ∃ moved, Walked now since s moved s' here.2 ∧
        ∀ r ∈ (s'.selected (lately since)).take here.1, r.id ∈ here.2.visited)
    ⟨rfl, rfl, ∅, .start hs, hfirst⟩ ?_
  rintro _ _ s₂ ⟨offset, w₁⟩ ⟨rfl, hstack, moved₁, hwalked, hseen⟩
  refine Achieves.ask ⟨_, s₂, .answered (.query _)⟩ fun reply s₃ hreply => ?_
  obtain ⟨rfl, rfl⟩ := hreply.of_query fun _ _ h => h
  have hquery : s₃.query (RunFilter.page { kinds := [.cancelled], updatedSince := some since }
      cleanup.limit offset) = ((s₃.selected (lately since)).drop offset).take cleanup.limit := rfl
  rw [hquery]
  generalize hpage : ((s₃.selected (lately since)).drop offset).take cleanup.limit = page
  have hroots : ∀ root ∈ page, s.ReachedSince since root.id := fun root hroot =>
    hwalked.reached_of_lately hs (List.mem_of_mem_drop (List.mem_of_mem_take (hpage ▸ hroot)))
  show Achieves _ _ (Script.bind (cleanup.cancelBelow now w₁ page) _) _
  refine Achieves.bind (achieves_cancelBelow hs hwalked hstack hroots) ?_
  rintro _ s' _ ⟨w', moved', rfl, hwalked', hstack', hmono, hvisited⟩
  have hpast : ∀ r ∈ (s₃.selected (lately since)).take (offset + cleanup.limit),
      r.id ∈ w'.visited := by
    rw [List.take_add, hpage]
    exact List.forall_mem_append.mpr ⟨fun r hr => hmono _ (hseen r hr), hvisited⟩
  have hlimit : 0 < cleanup.limit := Nat.lt_of_lt_of_le one_pos (le_max_right _ _)
  have hlength : page.length = min cleanup.limit ((s₃.selected (lately since)).length - offset) := by
    rw [← hpage, List.length_take, List.length_drop]
  have hbound := hwalked.length_selected_le hs (lately since)
  show Achieves _ _ (if page.length < cleanup.limit then Script.done _ else Script.done _) _
  split_ifs with hlast
  · rw [List.take_of_length_le (by omega)] at hpast
    exact .done ⟨w', moved', rfl, hwalked', hstack', fun id hid =>
      hwalked.visited_of_cancelledSince hs hpast hid⟩
  · have hfull : page.length = cleanup.limit := by omega
    refine .done ⟨s.inOrder.length - (offset + page.length), by omega, rfl, hstack', moved',
      hwalked', ?_⟩
    rw [hfull]
    exact hwalked.visited_of_mem_take hs hwalked' hstack' hmono hpast

/-! ### Whole passes -/

theorem Walked.mem_moved_iff_below (h : Walked now since s moved s' w) (hstack : w.stack = [])
    (hroots : ∀ id, s.CancelledSince since id → id ∈ w.visited) (id : RunId) :
    id ∈ moved ↔ s.Ongoing id ∧ s.BelowCancelledSince since id := by
  have hvisited : ∀ id, s.ReachedSince since id → id ∈ w.visited := by
    rintro id ⟨root, hchain, hroot⟩
    induction hchain using Relation.ReflTransGen.head_induction_on with
    | refl => exact hroots root hroot
    | head hparent _ ih => exact Walk.mem_visited_of_known hstack (h.closed _ _ ih hparent)
  rw [h.mem_moved_iff, belowCancelledSince_iff]
  refine and_congr_right fun _ => ⟨?_, ?_⟩
  · rintro ⟨parent, hp, hparent⟩
    exact ⟨parent, hparent, h.reached parent (Walk.mem_known.mpr (Or.inl hp))⟩
  · rintro ⟨parent, hparent, hreached⟩
    exact ⟨parent, hvisited parent hreached, hparent⟩

theorem achieves_pass (hs : s.WellFormed)
    (hsince : now.sub? cleanup.lookback = some since) :
    Achieves Never s (cleanup.pass now) fun _ s' result => ∃ moved stats, result = .ok stats ∧
      Cancels now s moved s' stats ∧
      ∀ id, id ∈ moved ↔ s.Ongoing id ∧ s.BelowCancelledSince since id := by
  rw [pass, hsince]
  refine Achieves.bind (achieves_pages hs) ?_
  rintro _ s' _ ⟨w, moved, rfl, hwalked, hstack, hroots⟩
  exact .done ⟨moved, w.stats, rfl, hwalked.cancels, hwalked.mem_moved_iff_below hstack hroots⟩

theorem Cancels.ongoing (hs : s.WellFormed) {stats : PassStats} (h : Cancels now s moved s' stats)
    {id : RunId} (hongoing : s'.Ongoing id) : s.Ongoing id ∧ id ∉ moved := by
  obtain ⟨r', hget', hongoing⟩ := hongoing
  rw [h.entered.getRun, Option.map_eq_some_iff] at hget'
  obtain ⟨r, hget, rfl⟩ := hget'
  obtain rfl := hs.id_eq hget
  by_cases hmem : r.id ∈ moved
  · rw [Run.entered_of_mem hmem] at hongoing
    cases hongoing
  · rw [Run.entered_of_notMem hmem] at hongoing
    exact ⟨⟨r, hget, hongoing⟩, hmem⟩

theorem Cancels.parentOf_eq {stats : PassStats} (h : Cancels now s moved s' stats) :
    s'.ParentOf = s.ParentOf := by
  funext id parent
  refine propext ⟨?_, ?_⟩
  · rintro ⟨r', hget', hparent⟩
    rw [h.entered.getRun, Option.map_eq_some_iff] at hget'
    obtain ⟨r, hget, rfl⟩ := hget'
    exact ⟨r, hget, by rwa [Run.parent_entered] at hparent⟩
  · rintro ⟨r, hget, hparent⟩
    refine ⟨r.entered (cancelledAt now) moved, ?_, by rwa [Run.parent_entered]⟩
    rw [h.entered.getRun, hget, Option.map_some]

theorem Cancels.belowCancelledSince (hs : s.WellFormed) {stats : PassStats}
    (h : Cancels now s moved s' stats)
    (hmoved : ∀ id, id ∈ moved ↔ s.Ongoing id ∧ s.BelowCancelledSince since id) {id : RunId}
    (hbelow : s'.BelowCancelledSince since id) : s.BelowCancelledSince since id := by
  obtain ⟨root, hchain, r, hget, hcancelled⟩ := hbelow
  rw [h.parentOf_eq] at hchain
  by_cases hmem : root ∈ moved
  · obtain ⟨top, hrest, htop⟩ := ((hmoved root).mp hmem).2
    exact ⟨top, hchain.trans hrest, htop⟩
  · rw [h.entered.getRun_of_notMem hs hmem] at hget
    exact ⟨root, hchain, r, hget, hcancelled⟩

/-- **A clean-up cancels all that is below.** Nobody else works on the store, which does not fail,
and the instant from which on cancellations matter is in the calendar. However runs are linked to
parents, the pass comes to an end. By then it has cancelled, at this instant, the runs that had not
ended and from which a chain of parents leads to a run that was cancelled lately, and has changed
no other run. It counts as many as examined and as changed, and another pass at the same instant
finds nothing to do. -/
theorem cancels_all_below (hs : s.WellFormed)
    (hsince : now.sub? cleanup.lookback = some since) :
    Achieves Never s (cleanup.pass now) fun _ s' result => ∃ moved : Finset RunId,
      (∀ id, id ∈ moved ↔ s.Ongoing id ∧ s.BelowCancelledSince since id) ∧
      (∀ id ∈ moved, s'.getRun id = (s.getRun id).map (·.enter (cancelledAt now))) ∧
      (∀ id, id ∉ moved → s'.getRun id = s.getRun id) ∧
      result = .ok { examined := moved.card, transitioned := moved.card } ∧
      Achieves Never s' (cleanup.pass now) fun _ _ result => result = .ok {} := by
  refine (achieves_pass hs hsince).mono ?_
  rintro _ s' _ ⟨moved, stats, rfl, hcancels, hmoved⟩
  refine ⟨moved, hmoved, fun id hid => ?_,
    fun id hid => hcancels.entered.getRun_of_notMem hs hid, by rw [hcancels.stats_eq], ?_⟩
  · rw [hcancels.entered.getRun]
    refine Option.map_congr fun r hget => Run.entered_of_mem ?_
    rwa [hs.id_eq hget]
  · -- What could be cancelled by another pass has been cancelled by the first one.
    refine (achieves_pass hcancels.entered.wellFormed hsince).mono ?_
    rintro _ s'' _ ⟨moved', stats', rfl, hcancels', hmoved'⟩
    have hnone : moved' = ∅ := Finset.eq_empty_of_forall_notMem fun id hid => by
      obtain ⟨hongoing', hbelow'⟩ := (hmoved' id).mp hid
      obtain ⟨hongoing, hnot⟩ := hcancels.ongoing hs hongoing'
      exact hnot ((hmoved id).mpr ⟨hongoing, hcancels.belowCancelledSince hs hmoved hbelow'⟩)
    rw [hcancels'.stats_eq, hnone]
    rfl

def firstOfTwo : RunRequest where
  id := some ⟨1⟩
  name := some "first"
  parent := some ⟨2⟩

def secondOfTwo : RunRequest where
  id := some ⟨2⟩
  name := some "second"
  parent := some ⟨1⟩

/-- Two runs, each the parent of the other, of which one was cancelled. -/
def circle : Store :=
  (((empty.perform (.create firstOfTwo .epoch ⟨3⟩)).1.perform
    (.create secondOfTwo .epoch ⟨3⟩)).1.perform (.commit ⟨1⟩ .any (cancelledAt .epoch))).1

/-- A clean-up that looks at one run at a time, and at those cancelled just now. -/
def oneAtATime : CancellationCleanup where
  batchSize := 0
  lookback := .zero

theorem cancels_all_below_circle :
    circle.WellFormed ∧ Instant.epoch.sub? oneAtATime.lookback = some .epoch ∧
      ∃ course s' result r, (oneAtATime.pass .epoch).Takes course result ∧
        circle.Attends Never course s' ∧ circle.getRun ⟨2⟩ = some r ∧
        s'.getRun ⟨2⟩ = some (r.enter (cancelledAt .epoch)) := by
  have hfirst : Operation.Fresh empty (.create firstOfTwo .epoch ⟨3⟩) := fun h => by cases h
  have hsecond (s : Store) : Operation.Fresh s (.create secondOfTwo .epoch ⟨3⟩) := fun h => by
    cases h
  have hcancel (s : Store) : Operation.Fresh s (.commit ⟨1⟩ .any (cancelledAt .epoch)) := trivial
  have hs : circle.WellFormed :=
    (((Reachable.empty.perform hfirst).perform (hsecond _)).perform (hcancel _)).wellFormed
  have hsince : Instant.epoch.sub? oneAtATime.lookback = some .epoch := rfl
  have hpass := cancels_all_below hs hsince
  have hbelow : circle.Ongoing ⟨2⟩ ∧ circle.BelowCancelledSince .epoch ⟨2⟩ :=
    ⟨⟨_, rfl, rfl⟩, ⟨1⟩, .single ⟨_, rfl, rfl⟩, _, rfl, rfl, Instant.le_refl _⟩
  obtain ⟨course, s', result, htakes, hattends⟩ := hpass.ends.exists_takes
  obtain ⟨moved, hmoved, hentered, _⟩ := hpass.claim course s' result htakes hattends
  exact ⟨hs, hsince, course, s', result, _, htakes, hattends, rfl,
    hentered _ ((hmoved _).mpr hbelow)⟩

end CancellationCleanup

end RunScheduler
