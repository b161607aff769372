import RunScheduler.Proofs.Recurrence.Cron
import RunScheduler.Recurrence.Cron.Reader

/-!
# The order of cron occurrences

The occurrences of every pattern that can be read ascend, wherever the search begins. A search
that begins in a year which the pattern does not have may pass over matches in the first year that
it has, but never goes back: what it finds is later than where it begins (`lt_of_next?`).
-/

namespace RunScheduler.Cron

variable {p : Pattern} {t u after : Instant}

/-! ### Patterns that were read -/

theorem ascending_of_readField {f : Field} {s rest : List Char} {numbers : List Nat}
    (h : readField f s = some (numbers, rest)) : f.Ascending numbers := by
  unfold readField at h
  split at h
  · cases h
  · obtain ⟨_, hnumbers, heq⟩ := Option.map_eq_some_iff.mp h
    obtain ⟨sets, _, rfl⟩ := Option.map_eq_some_iff.mp hnumbers
    obtain ⟨rfl, _⟩ := Prod.mk.inj heq
    exact f.ascending_all.filter _

theorem wellFormed_of_readFields {s : List Char} (h : readFields s = some p) : p.WellFormed := by
  unfold readFields at h
  obtain ⟨⟨seconds, _⟩, hseconds, h⟩ := Option.bind_eq_some_iff.mp h
  obtain ⟨⟨minutes, _⟩, hminutes, h⟩ := Option.bind_eq_some_iff.mp h
  obtain ⟨⟨hours, _⟩, hhours, h⟩ := Option.bind_eq_some_iff.mp h
  obtain ⟨⟨daysOfMonth, _⟩, hdaysOfMonth, h⟩ := Option.bind_eq_some_iff.mp h
  obtain ⟨⟨months, _⟩, hmonths, h⟩ := Option.bind_eq_some_iff.mp h
  obtain ⟨⟨daysOfWeek, _⟩, _, h⟩ := Option.bind_eq_some_iff.mp h
  have hyears : Field.years.Ascending p.years ∧ p.seconds = seconds ∧ p.minutes = minutes ∧
      p.hours = hours ∧ p.daysOfMonth = daysOfMonth ∧ p.months = months := by
    dsimp only at h
    split at h
    · cases h
      exact ⟨Field.years.ascending_all, rfl, rfl, rfl, rfl, rfl⟩
    · split at h
      · rename_i years hread
        cases h
        exact ⟨ascending_of_readField hread, rfl, rfl, rfl, rfl, rfl⟩
      · cases h
  obtain ⟨hyears, rfl, rfl, rfl, rfl, rfl⟩ := hyears
  exact ⟨ascending_of_readField hseconds, ascending_of_readField hminutes,
    ascending_of_readField hhours, ascending_of_readField hdaysOfMonth,
    ascending_of_readField hmonths, hyears⟩

theorem wellFormed_of_mem_wordPatterns {word : String} (h : (word, p) ∈ wordPatterns) :
    p.WellFormed := by
  have hone {f : Field} {n : Nat} (hn : f.least ≤ n ∧ n ≤ f.greatest) : f.Ascending [n] :=
    ⟨List.pairwise_singleton _ _, fun m hm => List.mem_singleton.mp hm ▸ hn⟩
  have hall : ∀ f : Field, f.Ascending f.all := Field.ascending_all
  simp only [wordPatterns, List.mem_cons, Prod.mk.injEq, List.not_mem_nil, or_false] at h
  rcases h with ⟨-, rfl⟩ | ⟨-, rfl⟩ | ⟨-, rfl⟩ | ⟨-, rfl⟩ | ⟨-, rfl⟩
  · exact ⟨hone (by decide), hone (by decide), hone (by decide), hone (by decide),
      hone (by decide), hall _⟩
  · exact ⟨hone (by decide), hone (by decide), hone (by decide), hone (by decide), hall _, hall _⟩
  · exact ⟨hone (by decide), hone (by decide), hone (by decide), hall _, hall _, hall _⟩
  · exact ⟨hone (by decide), hone (by decide), hone (by decide), hall _, hall _, hall _⟩
  · exact ⟨hone (by decide), hone (by decide), hall _, hall _, hall _, hall _⟩

theorem wellFormed_of_ofText? {s : List Char} (h : ofText? s = some p) : p.WellFormed := by
  unfold ofText? at h
  dsimp only at h
  split at h
  · rename_i pattern hword
    cases h
    obtain ⟨⟨word, pattern⟩, hmem, hfound⟩ := List.exists_of_findSome?_eq_some hword
    dsimp only at hfound
    split at hfound
    · split_ifs at hfound
      cases hfound
      exact wellFormed_of_mem_wordPatterns hmem
    · cases hfound
  · exact wellFormed_of_readFields h

/-! ### Later matches -/

namespace Pattern

theorem year_of_firstInYear? {year : Nat} {place : Place}
    (h : p.firstInYear? year place = some t) : t.year = (year : Nat) := by
  -- The search does not look at the years of the pattern, which may as well be this one alone.
  have honly : ({ p with years := [year] } : Pattern).firstInYear? year place = some t := h
  obtain ⟨y, hy, heq⟩ := (matches_of_firstInYear? (List.mem_singleton_self year) honly).year
  rw [heq, List.mem_singleton.mp hy]

theorem lt_of_next? (hp : p.WellFormed) (h : p.next? after = some t) :
    after.second < t.second := by
  unfold next? at h
  split at h
  · cases h
  rename_i start hstart
  split_ifs at h with hnegative
  have hsecond := Instant.second_of_addSeconds? hstart (by decide)
  obtain ⟨⟨year, i⟩, hyi, h⟩ := List.exists_of_findSome?_eq_some h
  have hasc := hp.years.pairwise.filter (fun y => decide (start.year.toNat ≤ y))
  obtain ⟨hin, hle⟩ := List.mem_filter.mp
    (List.mem_of_getElem? (List.mem_zipIdx_iff_getElem?.mp hyi))
  have hle : start.year.toNat ≤ year := of_decide_eq_true hle
  rcases Nat.lt_or_eq_of_le hle with hlater | hsame
  · have hyear := year_of_firstInYear? h
    have := Instant.second_lt_of_year_lt (t := start) (u := t) (by omega)
    omega
  · -- The year of the start is the first one, and is searched from the place of the start on.
    have hzero : i = 0 := (index_eq_zero_iff hasc hyi).mpr fun m hm => by
      rw [← hsame]
      exact of_decide_eq_true (List.mem_filter.mp hm).2
    dsimp only at h
    rw [if_pos hzero] at h
    have hyear : start.year = year := by omega
    have hfirst := first_inYear hp hyear hin
    rw [h] at hfirst
    have := hfirst.1.2.1
    omega

theorem lt_of_mem_occurrences (hp : p.WellFormed) (h : t ∈ (p.occurrences after).toList) :
    after.second < t.second := by
  induction after using occurrences.induct p with
  | case1 after hnone =>
    rw [occurrences_of_none hnone] at h
    cases h
  | case2 after next hsome ih =>
    have hnext := lt_of_next? hp hsome
    rw [occurrences_of_some hsome, LazyList.toList_cons, if_pos hnext, List.mem_cons] at h
    rcases h with rfl | h
    · exact hnext
    · exact Int.lt_trans hnext (ih hnext h)

theorem pairwise_occurrences (hp : p.WellFormed) (after : Instant) :
    (p.occurrences after).toList.Pairwise (· < ·) := by
  induction after using occurrences.induct p with
  | case1 after hnone =>
    rw [occurrences_of_none hnone]
    exact List.Pairwise.nil
  | case2 after next hsome ih =>
    have hnext := lt_of_next? hp hsome
    rw [occurrences_of_some hsome, LazyList.toList_cons, if_pos hnext]
    exact (ih hnext).cons fun t ht => Instant.lt_def.mpr (Or.inl (lt_of_mem_occurrences hp ht))

end Pattern

end RunScheduler.Cron
