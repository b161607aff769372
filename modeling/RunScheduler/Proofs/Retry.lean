import Mathlib.Algebra.Group.Nat.Defs
import Mathlib.Order.Bounds.Basic
import Mathlib.Order.MinMax
import Mathlib.Tactic.SplitIfs
import RunScheduler.Retry

/-!
# Retries

A retry calls its operation until an outcome is a success or a permanent error, or until the calls
allowed are used up, and waits after each call but the last (`calls_of_retry`). One round of the
loop either ends it or adds a call and a wait to what was done (`run_retryFrom_of_last`,
`run_retryFrom_of_not_lasts`), and the number of rounds is found by induction on the tries left
(`exists_run_retryFrom`).

That a delay is cut to what a duration holds does not show, for the longest delay is a duration
(`nanos_delayAfter`). Delays never shrink and never exceed the longest (`delayAfter_mono`,
`delayAfter_le`). They double as long as the factor has 32 bits. From then on they stay, so that a
longest delay beyond the last one is never reached (`delayAfter_eq_doubled_iff`).
-/

namespace RunScheduler

/-! ### Outcomes that trying again does not change -/

/-- An error that the same operation would meet again. -/
inductive StoreError.Permanent : StoreError → Prop
  | cannotOpen (text : String) : Permanent (.cannotOpen text)
  | table (text : String) : Permanent (.table text)
  | encode (text : String) : Permanent (.encode text)
  | decode (text : String) : Permanent (.decode text)
  | runNotFound (run : RunId) : Permanent (.runNotFound run)
  | illegalMove (run : RunId) (from? : Option StateKind) (target : StateKind) :
      Permanent (.illegalMove run from? target)
  | concurrencyLimit (deployment : String) (limit : UInt32) :
      Permanent (.concurrencyLimit deployment limit)

theorem StoreError.isTransient_eq_false_iff {e : StoreError} :
    e.isTransient = false ↔ e.Permanent := by
  constructor
  · intro h
    cases e with
    | transaction | read | write | unavailable => cases h
    | _ => constructor
  · rintro ⟨⟩ <;> rfl

/-! ### Durations -/

namespace Duration

theorem nanos_min (d e : Duration) : (min d e).nanos = min d.nanos e.nanos := by
  change (if d.nanos ≤ e.nanos then d else e).nanos = _
  split_ifs with h
  · exact (Nat.min_eq_left h).symm
  · exact (Nat.min_eq_right (Nat.le_of_not_le h)).symm

theorem nanos_le_longest (d : Duration) : d.nanos ≤ longest.nanos :=
  Nat.le_sub_one_of_lt d.nanos_lt

theorem nanos_times (d : Duration) (n : Nat) :
    (d.times n).nanos = min (d.nanos * n) longest.nanos := by
  unfold times
  split_ifs with h
  · exact (Nat.min_eq_left (Nat.le_sub_one_of_lt h)).symm
  · have hlonger : longest.nanos ≤ d.nanos * n := Nat.le_trans (Nat.sub_le _ 1) (Nat.not_lt.mp h)
    exact (Nat.min_eq_right hlonger).symm

end Duration

namespace RetryPolicy

/-! ### Delays -/

theorem factor_succ (n : Nat) : factor (n + 1) = if n < 32 then 2 ^ n else 2 ^ 32 - 1 := rfl

theorem factor_mono {m n : Nat} (h : m ≤ n) : factor m ≤ factor n := by
  unfold factor
  split_ifs with hm hn hn
  · exact Nat.pow_le_pow_right (by decide) (by omega)
  · have hlast : 2 ^ (m - 1) ≤ 2 ^ 31 := Nat.pow_le_pow_right (by decide) (by omega)
    exact Nat.le_trans hlast (by decide)
  · omega
  · exact Nat.le_refl _

theorem nanos_delayAfter (p : RetryPolicy) (n : Nat) :
    (p.delayAfter n).nanos = min (p.baseDelay.nanos * factor n) p.maxDelay.nanos := by
  rw [delayAfter, Duration.nanos_min, Duration.nanos_times, Nat.min_assoc,
    Nat.min_eq_right p.maxDelay.nanos_le_longest]

theorem delayAfter_mono (p : RetryPolicy) {m n : Nat} (h : m ≤ n) :
    p.delayAfter m ≤ p.delayAfter n := by
  change (p.delayAfter m).nanos ≤ (p.delayAfter n).nanos
  rw [nanos_delayAfter, nanos_delayAfter]
  exact min_le_min_right _ (Nat.mul_le_mul_left _ (factor_mono h))

theorem delayAfter_le (p : RetryPolicy) (n : Nat) : p.delayAfter n ≤ p.maxDelay := by
  change (p.delayAfter n).nanos ≤ p.maxDelay.nanos
  rw [nanos_delayAfter]
  exact Nat.min_le_right _ _

/-- **Delays double as long as the factor has 32 bits.** The delay after `n + 1` tries is the first
delay doubled `n` times, or the longest if that is less, exactly if there are at most 32 tries, or
there is no delay at all, or the longest delay is reached with a factor of 32 bits. From the 33rd
try on the factor stays. -/
theorem delayAfter_eq_doubled_iff (p : RetryPolicy) (n : Nat) :
    ((p.delayAfter (n + 1)).nanos = min (p.baseDelay.nanos * 2 ^ n) p.maxDelay.nanos ↔
      n < 32 ∨ p.baseDelay.nanos = 0 ∨ p.maxDelay.nanos ≤ p.baseDelay.nanos * (2 ^ 32 - 1)) ∧
    (32 ≤ n → (p.delayAfter (n + 1)).nanos =
      min (p.baseDelay.nanos * (2 ^ 32 - 1)) p.maxDelay.nanos) := by
  rw [nanos_delayAfter, factor_succ]
  generalize p.baseDelay.nanos = first
  generalize p.maxDelay.nanos = longest
  by_cases hn : n < 32
  · rw [if_pos hn]
    exact ⟨iff_of_true rfl (Or.inl hn), fun h => absurd hn (Nat.not_lt.mpr h)⟩
  rw [if_neg hn]
  refine ⟨?_, fun _ => rfl⟩
  rw [or_iff_right hn]
  rcases Nat.eq_zero_or_pos first with rfl | hpos
  · rw [Nat.zero_mul, Nat.zero_mul]
    exact iff_of_true rfl (Or.inl rfl)
  -- The true product is greater, and the two differ below the longest delay alone.
  have hless : first * (2 ^ 32 - 1) < first * 2 ^ n := by
    have hpow : 2 ^ 32 ≤ 2 ^ n := Nat.pow_le_pow_right (by decide) (Nat.not_lt.mp hn)
    exact Nat.mul_lt_mul_of_pos_left (by omega) hpos
  generalize first * 2 ^ n = doubled at hless ⊢
  omega

/-- A first delay of one millisecond is not doubled a 32nd time, far below the longest. -/
theorem not_delayAfter_eq_doubled :
    ¬ ∀ (maxAttempts attempt : UInt32) (base longest : UInt64), 1 ≤ attempt.toNat →
      (delayAfter ⟨maxAttempts, base, longest⟩ attempt.toNat).nanos =
        min (base.toNat * 2 ^ (attempt.toNat - 1)) longest.toNat * 1000000 := by
  intro h
  have hdelay := h 40 33 1 18446744073709551615
  revert hdelay
  decide

/-! ### Calls and waits -/

/-- What is done in the course of a retry. -/
inductive Act
  | call
  | wait (delay : Duration)
deriving DecidableEq

variable {α : Type} {p : RetryPolicy} {outcomes : Nat → Except StoreError α} {acts : List Act}
  {more n : Nat}

/-- An operation whose `n`-th call, counted from 1, has the `n`-th outcome. The calls are found in
what was done so far, and this one is noted there. -/
def noteCall (outcomes : Nat → Except StoreError α) :
    StateM (List Act) (Except StoreError α) := fun acts =>
  (outcomes (acts.count .call + 1), acts ++ [.call])

def noteWait (delay : Duration) : StateM (List Act) Unit := fun acts =>
  ((), acts ++ [.wait delay])

/-- So many calls from the `n`-th on, each with the wait after it. -/
def rounds (p : RetryPolicy) (n count : Nat) : List Act :=
  (List.range' n count).flatMap fun i => [.call, .wait (p.delayAfter i)]

/-- An outcome is a success or a permanent error. -/
def Lasts (outcome : Except StoreError α) : Prop :=
  ∀ e, outcome = .error e → e.Permanent

theorem not_lasts_iff {outcome : Except StoreError α} :
    ¬ Lasts outcome ↔ ∃ e, outcome = .error e ∧ e.isTransient = true := by
  simp only [Lasts, not_forall, exists_prop, ← StoreError.isTransient_eq_false_iff,
    Bool.not_eq_false]

theorem run_retryFrom_succ :
    (p.retryFrom noteWait (noteCall outcomes) (more + 1) n).run acts =
      StateT.run (m := Id) (match outcomes (acts.count .call + 1) with
        | .ok a => return .ok a
        | .error e =>
          if e.isTransient then do
            noteWait (p.delayAfter n)
            p.retryFrom noteWait (noteCall outcomes) more (n + 1)
          else return .error e) (acts ++ [.call]) := rfl

theorem run_retryFrom_of_last (h : more = 0 ∨ Lasts (outcomes (acts.count .call + 1))) :
    (p.retryFrom noteWait (noteCall outcomes) more n).run acts =
      (outcomes (acts.count .call + 1), acts ++ [.call]) := by
  cases more with
  | zero => rfl
  | succ more =>
    have hlasts := h.resolve_left (Nat.succ_ne_zero more)
    rw [run_retryFrom_succ]
    cases houtcome : outcomes (acts.count .call + 1) with
    | ok a => rfl
    | error e =>
      have hpermanent := StoreError.isTransient_eq_false_iff.mpr (hlasts e houtcome)
      dsimp only
      rw [if_neg (Bool.eq_false_iff.mp hpermanent)]
      rfl

theorem run_retryFrom_of_not_lasts (h : ¬ Lasts (outcomes (acts.count .call + 1))) :
    (p.retryFrom noteWait (noteCall outcomes) (more + 1) n).run acts =
      (p.retryFrom noteWait (noteCall outcomes) more (n + 1)).run
        (acts ++ [.call] ++ [.wait (p.delayAfter n)]) := by
  obtain ⟨e, houtcome, htransient⟩ := not_lasts_iff.mp h
  rw [run_retryFrom_succ, houtcome]
  dsimp only
  rw [if_pos htransient]
  rfl

theorem rounds_succ (p : RetryPolicy) (n count : Nat) :
    p.rounds n (count + 1) = [.call] ++ [.wait (p.delayAfter n)] ++ p.rounds (n + 1) count := by
  rw [rounds, List.range'_succ, List.flatMap_cons]
  rfl

/-- From the `n`-th call on there are some rounds that are followed by another one, and then the
last round. -/
theorem exists_run_retryFrom (p : RetryPolicy) (outcomes : Nat → Except StoreError α)
    (more : Nat) {acts : List Act} (hn : acts.count .call + 1 = n) :
    ∃ k ≤ more, (∀ i < k, ¬ Lasts (outcomes (n + i))) ∧ (k = more ∨ Lasts (outcomes (n + k))) ∧
      (p.retryFrom noteWait (noteCall outcomes) more n).run acts =
        (outcomes (n + k), acts ++ p.rounds n k ++ [.call]) := by
  induction more generalizing n acts with
  | zero =>
    refine ⟨0, Nat.le_refl 0, fun i hi => absurd hi (Nat.not_lt_zero i), Or.inl rfl, ?_⟩
    rw [run_retryFrom_of_last (Or.inl rfl), hn, Nat.add_zero]
    simp [rounds]
  | succ more ih =>
    by_cases hlasts : Lasts (outcomes n)
    · refine ⟨0, Nat.zero_le _, fun i hi => absurd hi (Nat.not_lt_zero i), Or.inr hlasts, ?_⟩
      rw [run_retryFrom_of_last (Or.inr (hn ▸ hlasts)), hn, Nat.add_zero]
      simp [rounds]
    · have hnext : (acts ++ [Act.call] ++ [Act.wait (p.delayAfter n)]).count .call + 1 = n + 1 := by
        simp [hn]
      obtain ⟨k, hk, hearlier, hlast, hrun⟩ := ih hnext
      have hcalls (i : Nat) : n + 1 + i = n + (i + 1) := by omega
      simp only [hcalls] at hearlier hlast hrun
      refine ⟨k + 1, Nat.succ_le_succ hk, fun i hi => ?_, hlast.imp_left (congrArg _), ?_⟩
      · cases i with
        | zero => exact hlasts
        | succ i => exact hearlier i (Nat.lt_of_succ_lt_succ hi)
      · rw [run_retryFrom_of_not_lasts (hn ▸ hlasts), hrun, rounds_succ]
        simp only [List.append_assoc]

/-- **A retry ends with the first outcome that lasts, or with the last call allowed.** Whatever the
outcomes of the operation are, it is called up to the first call with a success or a permanent error
and at most as often as the policy allows, which is once at least. The outcome is that of the last
call, and between two calls there is the delay that belongs to them. The delays never shrink and
never exceed the longest, and nothing is called after a permanent error. -/
theorem calls_of_retry (p : RetryPolicy) (outcomes : Nat → Except StoreError α) :
    ∃ last, IsLeast {n | 1 ≤ n ∧ (max 1 p.maxAttempts.toNat ≤ n ∨ Lasts (outcomes n))} last ∧
      (p.retry noteWait (noteCall outcomes)).run [] =
        (outcomes last, p.rounds 1 (last - 1) ++ [.call]) ∧
      (∀ m n, m ≤ n → p.delayAfter m ≤ p.delayAfter n) ∧
      (∀ n, p.delayAfter n ≤ p.maxDelay) ∧
      ∀ n e, 1 ≤ n → n ≤ last → outcomes n = .error e → e.Permanent → n = last := by
  have hfirst : ([] : List Act).count .call + 1 = 1 := rfl
  obtain ⟨k, hk, hearlier, hlast, hrun⟩ :=
    exists_run_retryFrom p outcomes (p.attempts - 1) hfirst
  have hattempts : p.attempts = max 1 p.maxAttempts.toNat := max_comm _ _
  have hbefore : ∀ n, 1 ≤ n → Lasts (outcomes n) → 1 + k ≤ n := by
    intro n hn hlasts
    by_contra hlt
    exact hearlier (n - 1) (by omega) ((Nat.add_sub_cancel' hn).symm ▸ hlasts)
  refine ⟨1 + k, ⟨⟨Nat.le_add_right 1 k, ?_⟩, ?_⟩, ?_, fun _ _ h => p.delayAfter_mono h,
    p.delayAfter_le, ?_⟩
  · refine hlast.imp_left fun hused => ?_
    omega
  · rintro n ⟨hn, hused | hlasts⟩
    · omega
    · exact hbefore n hn hlasts
  · rw [Nat.add_sub_cancel_left]
    exact hrun
  · intro n e hn hle houtcome hpermanent
    have hlasts : Lasts (outcomes n) := by
      intro e' he'
      rw [houtcome] at he'
      cases he'
      exact hpermanent
    exact Nat.le_antisymm hle (hbefore n hn hlasts)

end RetryPolicy

end RunScheduler
