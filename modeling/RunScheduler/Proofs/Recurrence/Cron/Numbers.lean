import RunScheduler.Proofs.Recurrence.Cron.Fields
import RunScheduler.Proofs.Recurrence.Cron.Matches

/-!
# The numbers of a cron field

The items of a field that fit it stand for the numbers that they include (`exists_numbers?`), and
the field is read as these numbers, whatever field follows it (`readField_items`).
-/

namespace RunScheduler.Cron

variable {f : Field}

theorem Field.hasNumber_iff {n : Nat} : f.hasNumber n = true ↔ f.least ≤ n ∧ n ≤ f.greatest := by
  unfold hasNumber
  rw [Bool.and_eq_true, decide_eq_true_eq, decide_eq_true_eq]

theorem mem_everyNth_range' {k first length n : Nat} :
    n ∈ everyNth k (List.range' first length) ↔
      (first ≤ n ∧ n < first + length) ∧ (n - first) % k = 0 := by
  have hget : ∀ i, (List.range' first length)[i]? = some n ↔ i < length ∧ first + i = n := by
    intro i
    rw [List.getElem?_eq_some_iff]
    simp only [List.length_range', List.getElem_range', Nat.one_mul, exists_prop]
  have hmem : n ∈ everyNth k (List.range' first length) ↔
      ∃ i, (List.range' first length)[i]? = some n ∧ i % k = 0 := by
    simp only [everyNth, List.mem_map, List.mem_filter, Prod.exists, List.mem_zipIdx_iff_getElem?,
      beq_iff_eq, exists_and_right, exists_eq_right]
  rw [hmem]
  constructor
  · rintro ⟨i, hi, hmod⟩
    obtain ⟨hlt, rfl⟩ := (hget i).mp hi
    rw [Nat.add_sub_cancel_left]
    exact ⟨by omega, hmod⟩
  · rintro ⟨⟨hle, hlt⟩, hmod⟩
    exact ⟨n - first, (hget _).mpr (by omega), hmod⟩

theorem numbersOf?_specifier {span : Span} (hleast : f.least ≤ span.first f.least)
    (horder : span.first f.least ≤ span.last f.greatest)
    (hgreatest : span.last f.greatest ≤ f.greatest) :
    f.numbersOf? span.specifier =
      some (List.range' (span.first f.least) (span.last f.greatest + 1 - span.first f.least)) := by
  cases span with
  | all => rfl
  | number n =>
    simp only [Span.first, Span.last] at hleast hgreatest ⊢
    have hin : f.hasNumber n.value = true := Field.hasNumber_iff.mpr ⟨hleast, hgreatest⟩
    simp only [Span.specifier, Field.numbersOf?]
    rw [if_pos hin, Nat.add_sub_cancel_left]
    rfl
  | range first last =>
    simp only [Span.first, Span.last] at hleast horder hgreatest ⊢
    have hfirst : f.hasNumber first.value = true := Field.hasNumber_iff.mpr ⟨hleast, by omega⟩
    have hlast : f.hasNumber last.value = true := Field.hasNumber_iff.mpr ⟨by omega, hgreatest⟩
    simp only [Span.specifier, Field.numbersOf?, Field.range?]
    rw [if_pos]
    rw [hfirst, hlast, Bool.and_true, Bool.true_and]
    exact decide_eq_true horder

theorem exists_termNumbers? {i : Item} (h : i.Fits f.least f.greatest) :
    ∃ l, f.termNumbers? i.term = some l ∧ ∀ n, n ∈ l ↔ i.Includes f.least f.greatest n := by
  have hnumbers := numbersOf?_specifier h.least_le h.first_le_last h.le_greatest
  have horder := h.first_le_last
  have hpos := h.step_pos
  have hspan := h.span_of_step
  obtain ⟨span, step⟩ := i
  simp only at hnumbers horder hspan
  generalize hlength : span.last f.greatest + 1 - span.first f.least = length at hnumbers
  cases step with
  | none =>
    refine ⟨List.range' (span.first f.least) length, hnumbers, fun n => ?_⟩
    rw [List.mem_range'_1]
    simp only [Item.Includes, Item.stride, Nat.mod_one, and_true]
    omega
  | some step =>
    have hstride : f.termNumbers? (.stepped span.specifier step.value) =
        (f.numbersOf? span.specifier).map (everyNth step.value) := by
      have hne : step.value ≠ 0 := Nat.ne_of_gt hpos
      cases span with
      | number n => cases hspan rfl
      | all => exact if_neg hne
      | range first last => exact if_neg hne
    refine ⟨everyNth step.value (List.range' (span.first f.least) length), ?_, fun n => ?_⟩
    · rw [Item.term, hstride, hnumbers]
      rfl
    · rw [mem_everyNth_range']
      simp only [Item.Includes, Item.stride]
      omega

theorem exists_mapM_termNumbers? {l : List Item} (h : ∀ i ∈ l, i.Fits f.least f.greatest) :
    ∃ sets, (l.map Item.term).mapM f.termNumbers? = some sets ∧
      ∀ n, (∃ set ∈ sets, n ∈ set) ↔ ∃ i ∈ l, i.Includes f.least f.greatest n := by
  induction l with
  | nil => exact ⟨[], rfl, fun n => by simp⟩
  | cons i l ih =>
    obtain ⟨set, hset, hmem⟩ := exists_termNumbers? (h i List.mem_cons_self)
    obtain ⟨sets, hsets, hmems⟩ := ih fun j hj => h j (List.mem_cons_of_mem i hj)
    refine ⟨set :: sets, ?_, fun n => ?_⟩
    · rw [List.map_cons, List.mapM_cons, hset, hsets]
      rfl
    · rw [List.exists_mem_cons_iff, List.exists_mem_cons_iff, hmem, hmems]

theorem Item.Fits.includes_bounds {i : Item} {least greatest n : Nat} (h : i.Fits least greatest)
    (hn : i.Includes least greatest n) : least ≤ n ∧ n ≤ greatest := by
  have hleast := h.least_le
  have hgreatest := h.le_greatest
  have hspan := hn.1
  omega

/-- The numbers of a field are those that an item includes. -/
theorem exists_numbers? {l : Items} (h : l.Fit f.least f.greatest) :
    ∃ numbers, f.numbers? l.terms = some numbers ∧ f.Ascending numbers ∧
      ∀ n, n ∈ numbers ↔ l.Include f.least f.greatest n := by
  obtain ⟨sets, hsets, hmem⟩ := exists_mapM_termNumbers? h
  refine ⟨f.all.filter fun n => sets.any (·.contains n), ?_, f.ascending_all.filter _, fun n => ?_⟩
  · rw [Field.numbers?, Items.terms, hsets]
    rfl
  · have hany : sets.any (·.contains n) = true ↔ ∃ set ∈ sets, n ∈ set := by
      simp only [List.any_eq_true, List.contains_iff_mem]
    rw [List.mem_filter, hany, hmem, Field.mem_all]
    refine and_iff_right_of_imp ?_
    rintro ⟨i, hi, hn⟩
    exact (h i hi).includes_bounds hn

theorem Item.Fits.readable {i : Item} {least greatest : Nat} (h : i.Fits least greatest)
    (hlimit : greatest ≤ 4294967295) : i.span.Readable := by
  have horder := h.first_le_last
  have hgreatest := h.le_greatest
  cases hspan : i.span with
  | all => trivial
  | number n =>
    rw [hspan] at hgreatest
    exact Nat.le_trans hgreatest hlimit
  | range first last =>
    rw [hspan] at horder hgreatest
    have hlast : last.value ≤ 4294967295 := Nat.le_trans hgreatest hlimit
    exact ⟨Nat.le_trans horder hlast, hlast⟩

theorem readField_items (f : Field) {l : Items} (h : l.Fit f.least f.greatest) {rest : List Char}
    (hends : EndsField rest) :
    ∃ numbers, readField f (l.text ++ rest) = some (numbers, skipGap rest) ∧
      f.Ascending numbers ∧ ∀ n, n ∈ numbers ↔ l.Include f.least f.greatest n := by
  obtain ⟨numbers, hnumbers, hasc, hmem⟩ := exists_numbers? h
  have hlimit : f.greatest ≤ 4294967295 := by cases f <;> decide
  have hterms := readFieldTerms_text (f == .daysOfMonth || f == .daysOfWeek) (l := l)
    (fun i hi => ⟨(h i hi).readable hlimit, (h i hi).step_le⟩) hends
  refine ⟨numbers, ?_, hasc, hmem⟩
  unfold readField
  rw [hterms]
  simp only [hnumbers]
  rfl

end RunScheduler.Cron
