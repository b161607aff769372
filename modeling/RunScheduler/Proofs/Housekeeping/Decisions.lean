import RunScheduler.Proofs.Housekeeping.Cleanup
import RunScheduler.Proofs.Housekeeping.Sweep

/-!
# Decisions of housekeeping

A pass decides by what it has read, and by the time it acts the runs may be others than those it
read: resumed and paused again, started, or moved by another pass. Each decision is right all the
same when it takes effect (`housekeeping_decides_rightly`). Sweeps owe this to what a commit expects
(`moved_of_begins`), a clean-up to parents and cancellations being final.
-/

namespace RunScheduler

/-! ### Late states -/

theorem StateKind.not_late_of_isChain {k : StateKind} {kinds : List StateKind}
    (h : (k :: kinds).IsChain fun k next => k.canBecome next = true) (hk : k ≠ .scheduled) :
    .late ∉ kinds := by
  induction kinds generalizing k with
  | nil => exact List.not_mem_nil
  | cons next kinds ih =>
    obtain ⟨hmove, hrest⟩ := List.isChain_cons_cons.mp h
    have hnext : next ≠ .scheduled ∧ next ≠ .late := by
      revert hmove hk
      cases k <;> cases next <;> decide
    rw [List.mem_cons, not_or]
    exact ⟨hnext.2.symm, ih hrest hnext.1⟩

theorem Run.FollowsTable.count_late_le {r : Run} (h : r.FollowsTable) :
    (r.states.map (·.kind)).count .late ≤ 1 := by
  obtain ⟨first, hfirst, hkey⟩ := h.start
  have hpath := h.path
  generalize r.states.map (·.kind) = kinds at hfirst hpath
  have hstart : first ≠ .late := by
    split_ifs at hkey
    · rw [hkey]
      decide
    · rcases hkey with hkey | hkey <;> rw [hkey] <;> decide
  cases kinds with
  | nil => cases hfirst
  | cons k kinds =>
    cases hfirst
    rw [List.count_cons_of_ne hstart]
    cases kinds with
    | nil => exact Nat.zero_le 1
    | cons next kinds =>
      obtain ⟨hmove, hrest⟩ := List.isChain_cons_cons.mp hpath
      have hnext : next ≠ .scheduled := by
        revert hmove
        cases first <;> cases next <;> decide
      rw [List.count_cons, List.count_eq_zero.mpr (StateKind.not_late_of_isChain hrest hnext)]
      split_ifs <;> omega

namespace Housekeeping

open Script Store

variable {ι : Type} [DecidableEq ι] {i : ι} {s s' : Store} {steps : List (Step ι)}

/-- What a pass that sweeps has moved was selected right before, and is as moved or further on now.
The pass need not have ended. -/
theorem moved_of_begins (sweeper : Sweeper) {now : Instant} (hs : s.WellFormed)
    (hsteps : Undergoes s steps s') (hbegins : (sweeper.pass now).Begins (Step.courseOf i steps))
    {id : RunId} {expected : Expected} {next : State} {moved : Run}
    (hmem : .answered i ⟨.commit id expected next, Except.ok moved⟩ ∈ steps) :
    ∃ filter r final, sweeper.filter? now = some filter ∧ filter.selects r = true ∧
      next = (sweeper.change now).next ∧ moved = r.enter next ∧
      s'.getRun id = some final ∧ moved.GrowsInto final := by
  rw [Sweeper.pass_eq] at hbegins
  obtain ⟨before, after, rfl⟩ := List.append_of_mem hmem
  cases hfilter : sweeper.filter? now with
  | none =>
    rw [hfilter, Step.courseOf_append_cons] at hbegins
    obtain ⟨later, result, htakes⟩ := hbegins
    exact absurd htakes.of_done.1 (by simp)
  | some filter =>
    rw [hfilter] at hbegins
    have hadmits := keepsTo_sweep.of_begins hbegins
    obtain ⟨s₁, s₂, hbefore, hstep, hafter⟩ := hsteps.of_append_cons
    obtain ⟨r, _, hselects, _, rfl, rfl, hget⟩ :=
      selects_of_moved hs (Sweeper.suits hfilter) hadmits hbefore hstep
    have hs₂ := (hstep.changes (hbefore.wellFormed hs)).wellFormed (hbefore.wellFormed hs)
    obtain ⟨final, hfinal, hgrows⟩ := hafter.growsInto hs₂ hget
    exact ⟨filter, r, final, rfl, hselects, rfl, rfl, hfinal, hgrows⟩

/-- **Housekeeping decides rightly.** Passes over late runs and expired pauses and clean-ups share a
store with anybody else. They need not have ended, and may have failed any time. Then:

* before a run failed by a pass over expired pauses, it was paused with a deadline not after the
  instant of the pass;
* before a run was marked late, it was scheduled for an instant before the one up to which the pass
  goes;
* no run was late twice;
* when a clean-up cancels a run, its parent is cancelled, or a chain of parents leads from there to
  a cancelled run. -/
theorem housekeeping_decides_rightly (h : Reachable s) (hsteps : Undergoes s steps s') :
    (∀ (i : ι) (pass : PauseExpirations) now, (pass.pass now).Begins (Step.courseOf i steps) →
      ∀ id expected next moved,
        .answered i ⟨.commit id expected next, Except.ok moved⟩ ∈ steps →
        next.kind = .failed ∧ ∃ earlier paused final,
          moved.states = earlier ++ [paused, next] ∧ paused.kind = .paused ∧
          paused.pauseDeadline.any (· ≤ now) = true ∧
          s'.getRun id = some final ∧ moved.states <+: final.states) ∧
    (∀ (i : ι) (pass : LateRuns) now, (pass.pass now).Begins (Step.courseOf i steps) →
      ∀ id expected next moved,
        .answered i ⟨.commit id expected next, Except.ok moved⟩ ∈ steps →
        next.kind = .late ∧ ∃ earlier scheduled final cutoff,
          moved.states = earlier ++ [scheduled, next] ∧ scheduled.kind = .scheduled ∧
          pass.cutoff? now = some cutoff ∧ final.scheduledTime < cutoff ∧
          s'.getRun id = some final ∧ moved.states <+: final.states) ∧
    (∀ id r, s'.getRun id = some r → (r.states.map (·.kind)).count .late ≤ 1) ∧
    (∀ (i : ι) (pass : CancellationCleanup) now,
      (pass.pass now).Begins (Step.courseOf i steps) →
      ∀ before id expected next moved after s₁ s₂,
        steps = before ++ .answered i ⟨.commit id expected next, Except.ok moved⟩ :: after →
        Undergoes s before s₁ →
        Happens s₁ (.answered i ⟨.commit id expected next, Except.ok moved⟩) s₂ →
        next.kind = .cancelled ∧ ∃ parent, s₁.ParentOf id parent ∧ s₁.BelowCancelled parent) := by
  have hs := h.wellFormed
  have hstates (r : Run) (next : State) : (r.enter next).states = r.history ++ [r.state, next] := by
    rw [Run.states_enter, Run.states, List.append_assoc]
    rfl
  refine ⟨fun i pass now hbegins id expected next moved hmem => ?_,
    fun i pass now hbegins id expected next moved hmem => ?_, fun id r hget => ?_,
    fun i pass now hbegins before id expected next moved after s₁ s₂ hsplit hbefore _ => ?_⟩
  · obtain ⟨filter, r, final, hfilter, hselects, rfl, rfl, hfinal, hgrows⟩ :=
      moved_of_begins (.pauseExpirations pass) hs hsteps hbegins hmem
    cases hfilter
    have hkind : r.kind = .paused :=
      List.mem_singleton.mp (RunFilter.kind_mem_of_selects hselects (List.cons_ne_nil _ _))
    have hdeadline := RunFilter.pauseDeadline_of_selects hselects rfl
    exact ⟨rfl, r.history, r.state, final, hstates r _, hkind, hdeadline, hfinal,
      hgrows.states_prefix⟩
  · obtain ⟨filter, r, final, hfilter, hselects, rfl, rfl, hfinal, hgrows⟩ :=
      moved_of_begins (.lateRuns pass) hs hsteps hbegins hmem
    obtain ⟨cutoff, hcutoff, rfl⟩ := Option.map_eq_some_iff.mp hfilter
    have hkind : r.kind = .scheduled :=
      List.mem_singleton.mp (RunFilter.kind_mem_of_selects hselects (List.cons_ne_nil _ _))
    have htime := RunFilter.scheduledTime_lt_of_selects hselects rfl
    have hsame : final.scheduledTime = r.scheduledTime := hgrows.scheduledTime_eq
    rw [← hsame] at htime
    exact ⟨rfl, r.history, r.state, final, cutoff, hstates r _, hkind, hcutoff, htime, hfinal,
      hgrows.states_prefix⟩
  · exact ((hsteps.reachable h).followsTable id r hget).count_late_le
  · have hadmits := (CancellationCleanup.keepsTo_pass pass now).of_begins hbegins
    rw [hsplit, Step.courseOf_append_cons] at hadmits
    cases hadmits.of_append_cons with
    | elsewhere h => cases h
    | cancel hparent hchild hnext =>
      exact ⟨hnext, _, hbefore.parentOf hs hchild, hbefore.belowCancelled hs hparent⟩

/-- A pause whose deadline is the instant at which it begins. -/
def briefPause (message : Option String) : State where
  kind := .paused
  time := .epoch
  message := message
  pauseDeadline := some .epoch

/-- A store with one run, which is paused. -/
def onePaused : Store :=
  (oneRunning.perform (.commit ⟨1⟩ .any (briefPause none))).1

def pausedRun : Run where
  id := ⟨1⟩
  name := RunRequest.defaultName none ⟨1⟩
  scheduledTime := .epoch
  state := briefPause none
  history := [{ kind := .running, time := .epoch }]
  createdAt := .epoch
  updatedAt := .epoch

def resumedRun : Run := pausedRun.enter { kind := .running, time := .epoch }

def pausedAgain : Run := resumedRun.enter (briefPause (some "again"))

def expiry : Change := PauseExpirations.change .epoch

def expiredPauses : RunFilter where
  kinds := [.paused]
  pauseExpiredBy := some .epoch

/-- Between what a pass reads and what it does, the run is resumed and paused again. -/
def stepsOfPauses : List (Step Unit) :=
  [.answered () ⟨.query expiredPauses, Except.ok [pausedRun]⟩,
   .acted (.commit ⟨1⟩ .any { kind := .running, time := .epoch }) (.run resumedRun),
   .acted (.commit ⟨1⟩ .any (briefPause (some "again"))) (.run pausedAgain),
   .answered () ⟨.commit ⟨1⟩ expiry.expected expiry.next,
     Except.ok (pausedAgain.enter expiry.next)⟩,
   .answered () ⟨.emit (.runEnded ⟨1⟩ none .failed .epoch), ()⟩]

theorem begins_pauses : (PauseExpirations.pass {} .epoch).Begins (Step.courseOf () stepsOfPauses) :=
  ⟨[], _, .enough (.ask (.ask (.ask (.done _)))) (.done _)⟩

theorem housekeeping_decides_rightly_of_pauses :
    Reachable onePaused ∧ ∃ s, Undergoes onePaused stepsOfPauses s ∧
      (PauseExpirations.pass {} .epoch).Begins (Step.courseOf () stepsOfPauses) ∧
      ∃ earlier paused final, (pausedAgain.enter expiry.next).states =
          earlier ++ [paused, expiry.next] ∧ paused.kind = .paused ∧
        s.getRun ⟨1⟩ = some final := by
  have hreach : Reachable onePaused := reachable_oneRunning.perform trivial
  have hpage : onePaused.query expiredPauses = [pausedRun] := by
    have hselected : onePaused.runs.values.filter expiredPauses.selects = [pausedRun] := rfl
    rw [query, selected, hselected, List.mergeSort_singleton]
    rfl
  have hread : Happens onePaused (.answered () ⟨.query expiredPauses, Except.ok [pausedRun]⟩)
      onePaused := by
    rw [← hpage]
    exact .answered (.query _)
  obtain ⟨s, hsteps⟩ : ∃ s, Undergoes onePaused stepsOfPauses s :=
    ⟨_, .cons hread <| .cons (.acted trivial) <| .cons (.acted trivial) <|
      .cons (.answered (.commit rfl)) <| .cons (.answered (.elsewhere rfl)) <| .nil _⟩
  obtain ⟨_, earlier, paused, final, hstates, hpaused, _, hfinal, _⟩ :=
    (housekeeping_decides_rightly hreach hsteps).1 () {} .epoch begins_pauses ⟨1⟩ _ _ _
      (List.mem_append_right [_, _, _] List.mem_cons_self)
  exact ⟨hreach, s, hsteps, begins_pauses, earlier, paused, final, hstates, hpaused, hfinal⟩

end Housekeeping

end RunScheduler
