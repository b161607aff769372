import RunScheduler.Proofs.Store.Sharing

/-!
# Runs that were read

A query gives stored runs that its filter selects (`mem_query`), and a first page that is not full
gives all of them (`mem_query_of_length_lt`). A run that was read is out of date as soon as somebody
moves it. What stays true is that the stored run continues the one that was read
(`Undergoes.of_read`).
-/

namespace RunScheduler

/-! ### What a filter tells -/

namespace RunFilter

variable {f : RunFilter} {r : Run}

theorem kind_mem_of_selects (h : f.selects r = true) (hkinds : f.kinds ≠ []) :
    r.kind ∈ f.kinds := by
  simp only [selects, Bool.and_eq_true, Bool.or_eq_true, List.isEmpty_iff,
    List.contains_eq_mem, decide_eq_true_eq] at h
  exact h.1.1.1.1.2.resolve_left hkinds

theorem scheduledTime_lt_of_selects {t : Instant} (h : f.selects r = true)
    (ht : f.scheduledBefore = some t) : r.scheduledTime < t := by
  simp only [selects, Bool.and_eq_true, ht, Option.all_some, decide_eq_true_eq] at h
  exact h.1.1.1.2

theorem pauseDeadline_of_selects {t : Instant} (h : f.selects r = true)
    (ht : f.pauseExpiredBy = some t) : r.state.pauseDeadline.any (· ≤ t) = true := by
  simp only [selects, Bool.and_eq_true, ht, Option.all_some] at h
  exact h.1.1.2

theorem parent_eq_of_selects {p : RunId} (h : f.selects r = true) (hp : f.parent = some p) :
    r.parent = some p := by
  simp only [selects, Bool.and_eq_true, hp, Option.all_some, beq_iff_eq] at h
  exact h.1.2

end RunFilter

theorem Expected.pauseDeadline_of_holds {expected : Expected} {state : State} {t : Instant}
    (h : expected.holds state = true) (ht : expected.pauseExpiredBy = some t) :
    state.pauseDeadline.any (· ≤ t) = true := by
  rw [holds, ht, Bool.and_eq_true] at h
  exact h.2

namespace Store

variable {ι : Type} {s s' : Store} {steps : List (Step ι)} {f : RunFilter} {r : Run}

/-! ### Queries -/

theorem mem_selected_iff (hs : s.WellFormed) :
    r ∈ s.selected f ↔ s.getRun r.id = some r ∧ f.selects r = true := by
  rw [selected, List.mem_mergeSort, List.mem_filter, hs.mem_values_iff]

theorem mem_query (hs : s.WellFormed) (h : r ∈ s.query f) :
    s.getRun r.id = some r ∧ f.selects r = true :=
  (mem_selected_iff hs).mp (List.mem_of_mem_drop (List.mem_of_mem_take h))

theorem mem_query_of_length_lt (hs : s.WellFormed) (hoffset : f.offset = 0)
    (hlt : (s.query f).length < f.limit) (hget : s.getRun r.id = some r)
    (hselects : f.selects r = true) : r ∈ s.query f := by
  rw [query, hoffset, List.drop_zero] at hlt ⊢
  rw [List.length_take] at hlt
  rw [List.take_of_length_le (by omega), mem_selected_iff hs]
  exact ⟨hget, hselects⟩

/-! ### Later -/

variable [DecidableEq ι] {i : ι} {runs : List Run}

theorem Undergoes.of_read (hs : s.WellFormed) (h : Undergoes s steps s')
    (hread : (⟨.query f, Except.ok runs⟩ : Exchange) ∈ Step.courseOf i steps) (hr : r ∈ runs) :
    f.selects r = true ∧ ∃ r', s'.getRun r.id = some r' ∧ r.GrowsInto r' := by
  obtain ⟨before, after, rfl⟩ := List.append_of_mem (h.answered_of_mem_courseOf hread nofun)
  obtain ⟨s₁, s₂, hbefore, hstep, hafter⟩ := h.of_append_cons
  obtain ⟨rfl, rfl⟩ := hstep.of_query
  have hs₁ := hbefore.wellFormed hs
  obtain ⟨hget, hselects⟩ := mem_query hs₁ hr
  exact ⟨hselects, hafter.growsInto hs₁ hget⟩

end Store

end RunScheduler
