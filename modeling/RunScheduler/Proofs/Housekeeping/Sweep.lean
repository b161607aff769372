import RunScheduler.Housekeeping.LateRuns
import RunScheduler.Housekeeping.PauseExpirations
import RunScheduler.Proofs.Lifecycle.Course
import RunScheduler.Proofs.Script.Protocol
import RunScheduler.Proofs.Store.Selection

/-!
# Sweeps

A sweep asks the store for pages of the runs that its filter selects, and to make its change of
runs that were on such a page (`Sweeps`). If nothing fails but changes of runs that somebody else
changed before (`Quiet`), every page is the first one of its time. The sweep ends with a page that
is not full, of which it has tried every run (`keepsTo_sweep`), and its counts are those of the
runs it moved and passed over (`Tally`).

What a filter and a change have to do with each other is put down in `Suits`. It holds of both
passes that sweep (`Sweeper.suits`), so that neither has to be looked at from there on. A run that
others move is selected again if it is as expected when a sweep comes to it (`selects_of_moved`).
-/

namespace RunScheduler.Housekeeping

open Script

/-! ### What a sweep asks for -/

section Courses

variable {l : Lifecycle} {filter : RunFilter} {change : Change} {past course : List Exchange}

/-- The request may be made by a sweep after what was exchanged. -/
inductive Sweeps (filter : RunFilter) (change : Change) (past : List Exchange) : Request → Prop
  | page (limit offset : Nat) : Sweeps filter change past (.query (filter.page limit offset))
  | change {limit offset : Nat} {runs : List Run} {r : Run}
      (hread : (⟨.query (filter.page limit offset), Except.ok runs⟩ : Exchange) ∈ past)
      (hr : r ∈ runs) : Sweeps filter change past (.commit r.id change.expected change.next)
  | elsewhere {request : Request} (h : request.isForStore = false) :
      Sweeps filter change past request

/-- The change of this run was asked for. -/
def Tried (change : Change) (course : List Exchange) (r : Run) : Prop :=
  ∃ reply, (⟨.commit r.id change.expected change.next, reply⟩ : Exchange) ∈ course

/-- Nothing failed but moves that are not allowed. -/
def Quiet (course : List Exchange) : Prop :=
  ∀ x ∈ course, x.Failed → ∃ id expected next run from? target,
    x = ⟨.commit id expected next, Except.error (.illegalMove run from? target)⟩

/-- What the counts of a quiet sweep are, with some runs of a page still to be tried. -/
structure Tally (course : List Exchange) (left : Nat) (stats : PassStats) : Prop where
  failed : stats.failed = 0
  transitioned : stats.transitioned = (course.filterMap Exchange.moved?).length
  examined : stats.examined = stats.transitioned + stats.skipped + left

theorem Quiet.of_append {course' : List Exchange} (h : Quiet (course ++ course')) :
    Quiet course ∧ Quiet course' :=
  ⟨fun x hx => h x (List.mem_append_left _ hx), fun x hx => h x (List.mem_append_right _ hx)⟩

theorem Tally.count {left : Nat} {stats : PassStats} {id : RunId} {expected : Expected}
    {next : State} {outcome : Except TransitionError Run} (h : Tally past (left + 1) stats)
    (htakes : (l.transition id expected next).Takes course outcome) (hquiet : Quiet course) :
    Tally (past ++ course) left (stats.count outcome) := by
  obtain ⟨reply, hmem, rfl, hmoved⟩ := Lifecycle.of_transition htakes
  have hlength : ((past ++ course).filterMap Exchange.moved?).length =
      (past.filterMap Exchange.moved?).length + reply.toOption.toList.length := by
    rw [List.filterMap_append, hmoved, List.length_append]
  obtain ⟨hfailed, htransitioned, hexamined⟩ := h
  cases reply with
  | ok r =>
    refine ⟨hfailed, ?_, ?_⟩
    · rw [hlength, ← htransitioned]
      rfl
    · show stats.examined = stats.transitioned + 1 + stats.skipped + left
      omega
  | error e =>
    obtain ⟨_, _, _, run, from?, target, heq⟩ := hquiet _ hmem (.commit id expected next e)
    cases heq
    refine ⟨hfailed, ?_, ?_⟩
    · rw [hlength, ← htransitioned]
      rfl
    · show stats.examined = stats.transitioned + (stats.skipped + 1) + left
      omega

theorem keepsTo_changeAll {stats : PassStats} {runs : List Run}
    (hknown : ∀ r ∈ runs, ∀ later,
      Sweeps filter change (past ++ later) (.commit r.id change.expected change.next)) :
    KeepsTo (Sweeps filter change) past (changeAll l change stats runs) fun past' stats' =>
      ∃ later, past' = past ++ later ∧ (∀ r ∈ runs, Tried change later r) ∧
        (Quiet past' → Tally past runs.length stats → Tally past' 0 stats') := by
  induction runs generalizing past stats with
  | nil =>
    have hnone : ∀ r ∈ ([] : List Run), Tried change [] r := fun r hr => absurd hr List.not_mem_nil
    exact .done ⟨[], (List.append_nil _).symm, hnone, fun _ htally => htally⟩
  | cons run runs ih =>
    have hmay : ∀ later request, (request = .commit run.id change.expected change.next ∨
        request.isForStore = false) → Sweeps filter change (past ++ later) request := by
      rintro later request (rfl | hrequest)
      · exact hknown run List.mem_cons_self later
      · exact .elsewhere hrequest
    refine KeepsTo.bind (KeepsTo.of_asks Lifecycle.asks_transition hmay) ?_
    rintro _ outcome ⟨course, rfl, htakes⟩
    have hlater : ∀ r ∈ runs, ∀ later, Sweeps filter change (past ++ course ++ later)
        (.commit r.id change.expected change.next) := by
      intro r hr later
      rw [List.append_assoc]
      exact hknown r (List.mem_cons_of_mem _ hr) _
    refine (ih hlater).mono ?_
    rintro _ stats' ⟨rest, rfl, htried, htally⟩
    refine ⟨course ++ rest, List.append_assoc _ _ _, fun r hr => ?_, fun hquiet hbefore => ?_⟩
    · rcases List.mem_cons.mp hr with rfl | hr
      · obtain ⟨reply, hmem, _⟩ := Lifecycle.of_transition htakes
        exact ⟨reply, List.mem_append_left _ hmem⟩
      · obtain ⟨reply, hmem⟩ := htried r hr
        exact ⟨reply, List.mem_append_right _ hmem⟩
    · exact htally hquiet (hbefore.count htakes hquiet.of_append.1.of_append.2)

/-- The sweep ended with a page that was not full, and tried every run of it. -/
def Exhausts (filter : RunFilter) (change : Change) (course : List Exchange) : Prop :=
  ∃ before runs after, course =
      before ++ ⟨.query (filter.page (max filter.limit 1) 0), Except.ok runs⟩ :: after ∧
    runs.length < max filter.limit 1 ∧ ∀ r ∈ runs, Tried change after r

theorem keepsTo_sweep :
    KeepsTo (Sweeps filter change) [] (sweep l filter change) fun course result =>
      Quiet course → ∃ stats, result = .ok stats ∧ Tally course 0 stats ∧
        Exhausts filter change course := by
  refine KeepsTo.repeatFrom (fun past stats => Quiet past → Tally past 0 stats)
    (fun _ => ⟨rfl, rfl, rfl⟩) fun past stats htally => ?_
  refine KeepsTo.ask (.page _ _) fun reply => ?_
  cases reply with
  | error e =>
    refine .done fun hquiet => ?_
    obtain ⟨_, _, _, _, _, _, heq⟩ := hquiet _ (List.mem_append_right _ List.mem_cons_self)
      (.query _ e)
    cases heq
  | ok runs =>
    generalize hpage : (⟨.query (filter.page (max filter.limit 1) stats.failed),
      Except.ok runs⟩ : Exchange) = page
    have hknown : ∀ r ∈ runs, ∀ later,
        Sweeps filter change (past ++ [page] ++ later)
          (.commit r.id change.expected change.next) := by
      intro r hr later
      rw [← hpage]
      exact .change (List.mem_append_left _ (List.mem_append_right _ List.mem_cons_self)) hr
    show KeepsTo _ _ (Script.bind
      (changeAll l change { stats with examined := stats.examined + runs.length } runs) _) _
    refine KeepsTo.bind (keepsTo_changeAll hknown) ?_
    rintro _ stats' ⟨later, rfl, htried, htally'⟩
    have hcounts (hquiet : Quiet (past ++ [page] ++ later)) :
        stats.failed = 0 ∧ Tally (past ++ [page] ++ later) 0 stats' := by
      obtain ⟨hfailed, htransitioned, hexamined⟩ := htally hquiet.of_append.1.of_append.1
      refine ⟨hfailed, htally' hquiet ⟨hfailed, ?_, congrArg (· + runs.length) hexamined⟩⟩
      rw [← hpage, List.filterMap_append]
      exact htransitioned.trans (congrArg List.length (List.append_nil _)).symm
    show KeepsTo _ _ (if runs.length < max filter.limit 1 then Script.done _ else Script.done _) _
    split_ifs with hlast
    · refine .done fun hquiet => ?_
      obtain ⟨hfirst, htally⟩ := hcounts hquiet
      refine ⟨stats', rfl, htally, past, runs, later, ?_, hlast, htried⟩
      rw [← hpage, hfirst, List.append_assoc, List.singleton_append]
    · exact .done fun hquiet => (hcounts hquiet).2

end Courses

/-! ### The passes that sweep -/

/-- What makes a change the right one for the runs that a filter selects. A change is made of a
run that is as expected then, even if it was selected long before. -/
structure Suits (filter : RunFilter) (change : Change) : Prop where
  /-- A selected run may be changed. -/
  mayMove : ∀ {r : Run}, filter.selects r = true → r.mayMove change.expected change.next = true
  /-- A run that was selected is so again when it is as expected. -/
  selects : ∀ {r r' : Run}, filter.selects r = true → r.GrowsInto r' →
    change.expected.holds r'.state = true → filter.selects r' = true
  /-- The change needs no slot. -/
  not_running : change.next.kind ≠ .running
  /-- A run that was changed is never as expected again. -/
  once : ∀ {r r' : Run}, r'.FollowsTable → (r.enter change.next).GrowsInto r' →
    change.expected.holds r'.state = false

/-- The passes that sweep. -/
inductive Sweeper
  | lateRuns (s : LateRuns)
  | pauseExpirations (s : PauseExpirations)

namespace Sweeper

def lifecycle : Sweeper → Lifecycle
  | .lateRuns s => s.lifecycle
  | .pauseExpirations s => s.lifecycle

def pass : Sweeper → Instant → Script (Except HousekeepingError PassStats)
  | .lateRuns s => s.pass
  | .pauseExpirations s => s.pass

/-- The runs that a pass is about, unless the instant up to which they matter is not in the
calendar. -/
def filter? : Sweeper → Instant → Option RunFilter
  | .lateRuns s, now => (s.cutoff? now).map fun cutoff =>
    { kinds := [.scheduled], scheduledBefore := some cutoff, limit := s.batchSize }
  | .pauseExpirations s, now =>
    some { kinds := [.paused], pauseExpiredBy := some now, limit := s.batchSize }

def change : Sweeper → Instant → Change
  | .lateRuns _ => LateRuns.change
  | .pauseExpirations _ => PauseExpirations.change

theorem pass_eq (sweeper : Sweeper) (now : Instant) :
    sweeper.pass now = match sweeper.filter? now with
      | none => .done (.error .cutoffOutOfRange)
      | some filter => sweep sweeper.lifecycle filter (sweeper.change now) := by
  cases sweeper with
  | lateRuns s =>
    show s.pass now = _
    rw [LateRuns.pass, filter?]
    cases s.cutoff? now <;> rfl
  | pauseExpirations s => rfl

end Sweeper

theorem suits_lateRuns (cutoff now : Instant) (limit : Nat) :
    Suits { kinds := [.scheduled], scheduledBefore := some cutoff, limit }
      (LateRuns.change now) where
  mayMove {r} h := by
    have hkind := List.mem_singleton.mp (RunFilter.kind_mem_of_selects h (List.cons_ne_nil _ _))
    have hstate : r.state.kind = .scheduled := hkind
    rw [Run.mayMove, hkind]
    simp [LateRuns.change, Expected.ofKind, Expected.holds, hstate]
    rfl
  selects {r r'} h hgrows hholds := by
    have hkind : r'.state.kind = .scheduled := Expected.kind_eq_of_holds hholds rfl
    have htime := RunFilter.scheduledTime_lt_of_selects h rfl
    rw [← hgrows.scheduledTime_eq] at htime
    simp [RunFilter.selects, Run.kind, hkind, htime]
  not_running := by
    show StateKind.late ≠ .running
    decide
  once {r r'} htable hgrows := by
    refine Bool.eq_false_iff.mpr fun hholds => ?_
    have hkind : r'.kind = .scheduled := Expected.kind_eq_of_holds hholds rfl
    have hlength := hgrows.states_prefix.length_le
    rw [Run.states_enter, Run.states, Run.states, htable.history_eq_nil hkind] at hlength
    simp at hlength

theorem suits_pauseExpirations (now : Instant) (limit : Nat) :
    Suits { kinds := [.paused], pauseExpiredBy := some now, limit }
      (PauseExpirations.change now) where
  mayMove {r} h := by
    have hkind := List.mem_singleton.mp (RunFilter.kind_mem_of_selects h (List.cons_ne_nil _ _))
    have hstate : r.state.kind = .paused := hkind
    have hdeadline := RunFilter.pauseDeadline_of_selects h rfl
    rw [Run.mayMove, hkind]
    simp [PauseExpirations.change, Expected.holds, hstate, hdeadline]
    rfl
  selects {r r'} h hgrows hholds := by
    have hkind : r'.state.kind = .paused := Expected.kind_eq_of_holds hholds rfl
    have hdeadline := Expected.pauseDeadline_of_holds hholds rfl
    simp [RunFilter.selects, Run.kind, hkind, hdeadline]
  not_running := by
    show StateKind.failed ≠ .running
    decide
  once {r r'} htable hgrows := by
    refine Bool.eq_false_iff.mpr fun hholds => ?_
    have hkind : r'.kind = .paused := Expected.kind_eq_of_holds hholds rfl
    rw [hgrows.eq_of_isTerminal rfl] at hkind
    cases hkind

theorem Sweeper.suits {sweeper : Sweeper} {now : Instant} {filter : RunFilter}
    (h : sweeper.filter? now = some filter) : Suits filter (sweeper.change now) := by
  cases sweeper with
  | lateRuns s =>
    obtain ⟨cutoff, _, rfl⟩ := Option.map_eq_some_iff.mp h
    exact suits_lateRuns cutoff now s.batchSize
  | pauseExpirations s =>
    cases h
    exact suits_pauseExpirations now s.batchSize

/-! ### Moves of a sweep -/

open Store

variable {ι : Type} [DecidableEq ι] {i : ι} {s s₁ s₂ : Store} {filter : RunFilter}
  {change : Change}

/-- What a sweep moves is as the filter asks for when it is moved. -/
theorem selects_of_moved (hs : s.WellFormed) (hsuits : Suits filter change)
    {before after : List (Step ι)} {id : RunId} {expected : Expected} {next : State} {moved : Run}
    (hadmits : Protocol.Admits (Sweeps filter change) [] (Step.courseOf i
      (before ++ .answered i ⟨.commit id expected next, Except.ok moved⟩ :: after)))
    (hbefore : Undergoes s before s₁)
    (hstep : Happens s₁ (.answered i ⟨.commit id expected next, Except.ok moved⟩) s₂) :
    ∃ r, s₁.getRun id = some r ∧ filter.selects r = true ∧ expected = change.expected ∧
      next = change.next ∧ moved = r.enter change.next ∧ s₂.getRun id = some moved := by
  rw [Step.courseOf_append_cons] at hadmits
  cases hadmits.of_append_cons with
  | elsewhere h => cases h
  | change hread hr =>
    obtain ⟨hselects, r, hget, hgrows⟩ := hbefore.of_read hs hread hr
    obtain ⟨r', hget', hholds, _, rfl, hmoved⟩ := hstep.of_commit (hbefore.wellFormed hs)
    rw [hget] at hget'
    cases hget'
    exact ⟨r, hget, hsuits.selects hselects hgrows hholds, rfl, rfl, rfl, hmoved⟩

end RunScheduler.Housekeeping
