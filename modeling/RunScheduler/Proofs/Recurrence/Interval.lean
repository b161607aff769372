import RunScheduler.Proofs.Instant.Parts
import RunScheduler.Recurrence.Interval

/-!
# The instants of an interval

The instants of an interval ascend with their indices (`lt_of_nth?`), and an expansion has those
from its first index on (`mem_fromIndex_iff`). The index that is computed from the distance to the
anchor passes over no instant later than the one asked for, whether or not the anchor is in a leap
second (`indexAfter_le`).
-/

namespace RunScheduler.Interval

variable {i : Interval} {j k : Nat} {t u after : Instant}

theorem nth?_eq (i : Interval) (k : Nat) :
    i.nth? k = i.anchor.addSeconds? (k * i.every : Nat) := by
  rw [nth?, Int.natCast_mul]

theorem second_of_nth?_eq (h : i.nth? k = some t) :
    t.second = i.anchor.second + (k * i.every : Nat) := by
  rw [nth?_eq] at h
  exact Instant.second_of_addSeconds? h (Int.natCast_nonneg _)

theorem lt_of_nth? (hj : i.nth? j = some t) (hk : i.nth? k = some u) (hlt : j < k) : t < u := by
  have hsteps : j * i.every < k * i.every := Nat.mul_lt_mul_of_pos_right hlt i.every_pos
  have ht := second_of_nth?_eq hj
  have hu := second_of_nth?_eq hk
  rw [Instant.lt_def]
  omega

theorem nth?_eq_none_of_le (hle : j ≤ k) (h : i.nth? j = none) : i.nth? k = none := by
  have hsteps : j * i.every ≤ k * i.every := Nat.mul_le_mul_right _ hle
  rw [nth?_eq, ← Option.not_isSome_iff_eq_none,
    Instant.addSeconds?_isSome_iff (Int.natCast_nonneg _)] at h ⊢
  omega

theorem fromIndex_of_none (h : i.nth? k = none) : i.fromIndex k = .nil := by
  rw [fromIndex]
  split
  · rfl
  · rename_i hsome
    rw [h] at hsome
    cases hsome

theorem fromIndex_of_nth? (h : i.nth? k = some t) :
    i.fromIndex k = .cons t fun _ => i.fromIndex (k + 1) := by
  rw [fromIndex]
  split
  · rename_i hnone
    rw [h] at hnone
    cases hnone
  · rename_i hsome
    rw [h] at hsome
    cases hsome
    rfl

theorem mem_fromIndex_iff : t ∈ (i.fromIndex k).toList ↔ ∃ n, k ≤ n ∧ i.nth? n = some t := by
  induction k using fromIndex.induct i with
  | case1 k hnone =>
    rw [fromIndex_of_none hnone]
    refine iff_of_false List.not_mem_nil ?_
    rintro ⟨n, hle, hn⟩
    rw [nth?_eq_none_of_le hle hnone] at hn
    cases hn
  | case2 k u hsome ih =>
    rw [fromIndex_of_nth? hsome, LazyList.toList_cons, List.mem_cons, ih]
    constructor
    · rintro (rfl | ⟨n, hle, hn⟩)
      · exact ⟨k, Nat.le_refl k, hsome⟩
      · exact ⟨n, Nat.le_of_succ_le hle, hn⟩
    · rintro ⟨n, hle, hn⟩
      rcases Nat.lt_or_eq_of_le hle with hlt | rfl
      · exact Or.inr ⟨n, hlt, hn⟩
      · exact Or.inl (Option.some.inj (hn.symm.trans hsome))

theorem pairwise_fromIndex (i : Interval) (k : Nat) :
    (i.fromIndex k).toList.Pairwise (· < ·) := by
  induction k using fromIndex.induct i with
  | case1 k hnone =>
    rw [fromIndex_of_none hnone]
    exact List.Pairwise.nil
  | case2 k u hsome ih =>
    rw [fromIndex_of_nth? hsome]
    refine ih.cons fun t ht => ?_
    obtain ⟨n, hle, hn⟩ := mem_fromIndex_iff.mp ht
    exact lt_of_nth? hsome hn hle

/-! ### The first index -/

theorem tdiv_lt {n c k : Int} (hc : 0 < c) (hk : 0 < k) (h : n < k * c) : n.tdiv c < k := by
  by_cases hn : 0 ≤ n
  · rw [Int.tdiv_eq_ediv_of_nonneg hn]
    exact Int.ediv_lt_of_lt_mul hc h
  · have hle : n.tdiv c ≤ (0 : Int).tdiv c := Int.tdiv_le_tdiv hc (by omega)
    rw [Int.zero_tdiv] at hle
    omega

/-- Outside leap seconds an instant is not farther from the anchor than the `k`-th is by the seconds
between them, but for its distance to the `k`-th itself. -/
theorem nanosSince_anchor_le (hplain : after.nano < 1000000000) (hk : 0 < k)
    (h : i.nth? k = some t) :
    after.nanosSince i.anchor ≤ k * i.every * 1000000000 +
      ((after.second - t.second) * 1000000000 + ((after.nano : Int) - t.nano)) := by
  have hpos : 0 < k * i.every := Nat.mul_pos hk i.every_pos
  rw [← Int.natCast_mul]
  rw [nth?_eq] at h
  generalize k * i.every = seconds at hpos h
  unfold Instant.addSeconds? at h
  unfold Instant.nanosSince
  dsimp only
  by_cases hanchor : i.anchor.nano < 1000000000
  · -- No second between the two is counted twice.
    rw [if_pos hanchor] at h
    obtain ⟨hsecond, hnano⟩ := Instant.of?_eq_some h
    rw [if_neg, if_neg]
    · omega
    · rintro ⟨-, hleap⟩
      exact Nat.not_lt.mpr (of_decide_eq_true hleap) hplain
    · rintro ⟨-, hleap⟩
      exact Nat.not_lt.mpr (of_decide_eq_true hleap) hanchor
  · rw [if_neg hanchor, if_neg (by omega), if_pos (by omega)] at h
    obtain ⟨hsecond, hnano⟩ := Instant.of?_eq_some h
    split_ifs <;> omega

theorem indexAfter_le (hplain : after.nano < 1000000000) (h : i.nth? k = some t)
    (hlt : after < t) : i.indexAfter after ≤ k := by
  unfold indexAfter
  split_ifs with hbefore
  · exact Int.natCast_nonneg k
  have hk : 0 < k := by
    by_contra hzero
    obtain rfl : k = 0 := by omega
    rw [nth?_eq, Nat.zero_mul, Int.natCast_zero, Instant.addSeconds?_zero,
      Option.some.injEq] at h
    rw [h] at hbefore
    exact hbefore hlt
  have hevery := i.every_pos
  have hmillis : after.millisSince i.anchor < k * (i.every * 1000) := by
    have hnanos := nanosSince_anchor_le hplain hk h
    rw [Instant.lt_def] at hlt
    refine tdiv_lt (by decide) (Int.mul_pos (by omega) (by omega)) ?_
    rw [← Int.mul_assoc]
    omega
  have hquotient : (after.millisSince i.anchor).tdiv (i.every * 1000) < k :=
    tdiv_lt (by omega) (by omega) hmillis
  omega

end RunScheduler.Interval
