import RunScheduler.Daemon
import RunScheduler.Proofs.Instant.Parts
import RunScheduler.Proofs.Script.Protocol

/-!
# Cutoffs outside the calendar

Late runs and cancelled runs are looked for up to, or from, an instant that lies a span of time
back. The settings take any number of seconds that a span holds, which is more than the calendar
has behind any instant (`Instant.secondsBack`). A pass whose cutoff lies before the calendar breaks
before it asks for anything, and nothing else breaks it (`LateRuns.takes_cutoffOutOfRange_iff`,
`CancellationCleanup.takes_cutoffOutOfRange_iff`). The loop of the service is over then
(`Service.endsAt_independent_iff`).
-/

namespace RunScheduler

/-! ### How far the calendar goes back -/

namespace Instant

variable {t : Instant}

/-- The seconds that the calendar has behind an instant. A leap second counts as the second after
it. -/
def secondsBack (t : Instant) : Int :=
  (if t.isLeap then t.second + 1 else t.second) - Calendar.firstDay * 86400

theorem addSeconds?_neg_eq_none_iff {n : Nat} :
    t.addSeconds? (-n) = none ↔ t.secondsBack < n := by
  have hfirst := t.first_le
  have hend := t.lt_end
  have hnano := t.nano_lt
  rw [← Option.not_isSome_iff_eq_none, ← Int.not_le]
  refine not_congr ?_
  unfold addSeconds? secondsBack
  by_cases hplain : t.nano < 1000000000
  · have hleap : ¬ t.isLeap = true := fun hleap => Nat.not_lt.mpr (of_decide_eq_true hleap) hplain
    rw [if_pos hplain, if_neg hleap, of?_isSome_iff]
    omega
  · have hleap : t.isLeap = true := decide_eq_true (Nat.not_lt.mp hplain)
    rw [if_neg hplain, if_pos hleap]
    split_ifs
    · exact iff_of_true rfl (by omega)
    · omega
    · rw [of?_isSome_iff]
      omega

theorem sub?_eq_none_iff {span : Span} {n : Nat} (h : span.nanos = n * 1000000000) :
    t.sub? span = none ↔ t.secondsBack < n := by
  rw [sub?, h, ← Int.neg_mul, addNanos?_seconds]
  exact addSeconds?_neg_eq_none_iff

theorem secondsBack_bounds (hfirst : 1970 ≤ t.year) (hlast : t.year ≤ 9999) :
    8334601228800 ≤ t.secondsBack ∧ t.secondsBack ≤ 8588003529600 := by
  have hlower : 0 ≤ t.second := by
    let before : Instant := ⟨-1, 0, by decide, by decide, by decide, by decide⟩
    have hyear : before.year = 1969 := by decide
    by_contra hlt
    have hle := year_le (t := t) (u := before) (Int.le_sub_one_of_lt (Int.not_le.mp hlt))
    omega
  have hupper : t.second < 253402300800 := by
    let after : Instant := ⟨253402300800, 0, by decide, by decide, by decide, by decide⟩
    have hyear : after.year = 10000 := by decide
    by_contra hle
    have hle := year_le (t := after) (u := t) (Int.not_lt.mp hle)
    omega
  unfold secondsBack Calendar.firstDay
  split_ifs <;> omega

end Instant

/-! ### Passes that break -/

open Script

/-- The pass may come to a cutoff that the calendar does not have. -/
def Breaks (pass : Script (Except HousekeepingError PassStats)) : Prop :=
  ∃ course, pass.Takes course (.error .cutoffOutOfRange)

/-- The service makes a pass at this instant and is over then, though it was not told to stop, and
has asked for nothing else. -/
def Service.EndsAt (service : Service Unit) (now : Instant) : Prop :=
  (service.runStep ()).Takes [⟨.stopRequested, false⟩, ⟨.readClock, now⟩] (.inr ())

/-- Whatever may be asked for at any time. -/
abbrev Protocol.free : Protocol := fun _ _ => True

theorem Script.KeepsTo.free {α : Type} {past : List Exchange} (script : Script α) :
    KeepsTo Protocol.free past script fun _ _ => True := by
  intro course a htakes
  clear htakes
  refine ⟨?_, trivial⟩
  induction course generalizing past with
  | nil => trivial
  | cons x course ih => exact ⟨trivial, ih⟩

/-- The outcome is no cutoff that the calendar does not have. -/
def InRange {α : Type} (outcome : Except HousekeepingError α) : Prop :=
  outcome ≠ .error .cutoffOutOfRange

theorem inRange_ok {α : Type} (a : α) : InRange (.ok a) := fun h => nomatch h

theorem inRange_state {α : Type} (e : StoreError) : InRange (α := α) (.error (.state e)) :=
  fun h => nomatch h

namespace Housekeeping

theorem inRange_sweep {l : Lifecycle} {filter : RunFilter} {change : Change} :
    KeepsTo Protocol.free [] (sweep l filter change) fun _ => InRange := by
  refine KeepsTo.repeatFrom (fun _ _ => True) trivial fun past stats _ => ?_
  refine KeepsTo.ask trivial fun reply => ?_
  cases reply with
  | error e => exact .done (inRange_state e)
  | ok runs =>
    show KeepsTo _ _ (Script.bind
      (changeAll l change { stats with examined := stats.examined + runs.length } runs) _) _
    refine KeepsTo.bind (KeepsTo.free _) fun past stats _ => ?_
    show KeepsTo _ _ (if runs.length < max filter.limit 1 then Script.done _ else Script.done _) _
    split_ifs
    · exact .done (inRange_ok stats)
    · exact .done trivial

end Housekeeping

namespace CancellationCleanup

variable (s : CancellationCleanup) (now : Instant) {past : List Exchange} {w : Walk}

theorem inRange_children {parent : RunId} :
    KeepsTo Protocol.free past (repeatFrom (0, w) (s.childrenStep now parent))
      fun _ => InRange := by
  refine KeepsTo.repeatFrom (fun _ _ => True) trivial ?_
  rintro past ⟨offset, w⟩ -
  refine KeepsTo.ask trivial fun reply => ?_
  cases reply with
  | error e => exact .done (inRange_state e)
  | ok children =>
    show KeepsTo _ _ (Script.bind (s.cancelChildren now w children) _) _
    refine KeepsTo.bind (KeepsTo.free _) fun past w _ => ?_
    show KeepsTo _ _ (if children.length < s.limit then Script.done _ else Script.done _) _
    split_ifs
    · exact .done (inRange_ok w)
    · exact .done trivial

theorem inRange_descendants :
    KeepsTo Protocol.free past (repeatFrom w (s.descendantsStep now)) fun _ => InRange := by
  refine KeepsTo.repeatFrom (fun _ _ => True) trivial fun past w _ => ?_
  rw [descendantsStep.eq_def]
  split
  · exact .done (inRange_ok w)
  dsimp only
  split_ifs
  · exact .done trivial
  · refine KeepsTo.bind (inRange_children s now) fun past outcome houtcome => ?_
    cases outcome with
    | error e => exact .done fun h => houtcome (by cases h; rfl)
    | ok w => exact .done trivial

theorem inRange_cancelBelow {roots : List Run} :
    KeepsTo Protocol.free past (s.cancelBelow now w roots) fun _ => InRange := by
  induction roots generalizing past w with
  | nil => exact .done (inRange_ok w)
  | cons root roots ih =>
    refine KeepsTo.bind (inRange_descendants s now) fun past outcome houtcome => ?_
    cases outcome with
    | error e => exact .done houtcome
    | ok w => exact ih

theorem inRange_pages {since : Instant} :
    KeepsTo Protocol.free past (repeatFrom (0, {}) (s.passStep now since)) fun _ => InRange := by
  refine KeepsTo.repeatFrom (fun _ _ => True) trivial ?_
  rintro past ⟨offset, w⟩ -
  refine KeepsTo.ask trivial fun reply => ?_
  cases reply with
  | error e => exact .done (inRange_state e)
  | ok cancelled =>
    show KeepsTo _ _ (Script.bind (s.cancelBelow now w cancelled) _) _
    refine KeepsTo.bind (inRange_cancelBelow s now) fun past outcome houtcome => ?_
    cases outcome with
    | error e => exact .done houtcome
    | ok w =>
      show KeepsTo _ _ (if cancelled.length < s.limit then Script.done _ else Script.done _) _
      split_ifs
      · exact .done (inRange_ok w)
      · exact .done trivial

end CancellationCleanup

/-- A pass that begins with its cutoff breaks there or nowhere. -/
theorem takes_cutoffOutOfRange_iff {cutoff? : Option Instant}
    {search : Instant → Script (Except HousekeepingError PassStats)} {course : List Exchange}
    (hsearch : ∀ cutoff, KeepsTo Protocol.free [] (search cutoff) fun _ => InRange) :
    Takes (match cutoff? with
      | none => .done (.error .cutoffOutOfRange)
      | some cutoff => search cutoff) course (.error .cutoffOutOfRange) ↔
      cutoff? = none ∧ course = [] := by
  cases cutoff? with
  | none =>
    refine ⟨fun h => ⟨rfl, h.of_done.1⟩, ?_⟩
    rintro ⟨-, rfl⟩
    exact .done _
  | some cutoff =>
    exact iff_of_false (fun h => (hsearch cutoff _ _ h).2 rfl) fun h => nomatch h.1

theorem LateRuns.takes_cutoffOutOfRange_iff {s : LateRuns} {now : Instant}
    {course : List Exchange} :
    (s.pass now).Takes course (.error .cutoffOutOfRange) ↔ s.cutoff? now = none ∧ course = [] :=
  RunScheduler.takes_cutoffOutOfRange_iff fun _ => Housekeeping.inRange_sweep

theorem CancellationCleanup.takes_cutoffOutOfRange_iff {s : CancellationCleanup} {now : Instant}
    {course : List Exchange} :
    (s.pass now).Takes course (.error .cutoffOutOfRange) ↔
      now.sub? s.lookback = none ∧ course = [] := by
  refine RunScheduler.takes_cutoffOutOfRange_iff fun since => ?_
  refine KeepsTo.bind (inRange_pages s now) fun past outcome houtcome => ?_
  cases outcome with
  | error e => exact .done fun h => houtcome (by cases h; rfl)
  | ok w => exact .done (inRange_ok w.stats)

theorem Service.endsAt_independent_iff {name : String} {interval : Nat} {now : Instant}
    {pass : Instant → Script (Except HousekeepingError PassStats)} :
    (Service.independent name interval pass).EndsAt now ↔
      (pass now).Takes [] (.error .cutoffOutOfRange) := by
  constructor
  · intro h
    cases h with
    | ask h =>
    cases h with
    | ask h =>
    change Takes (Script.bind ((pass now).bind fun outcome => .done (outcome, ())) _) [] _ at h
    obtain ⟨made, rest, ⟨outcome, _⟩, hcourse, hmade, hrest⟩ := Takes.of_bind h
    obtain ⟨rfl, rfl⟩ := List.append_eq_nil_iff.mp hcourse.symm
    obtain ⟨made, none, outcome', hcourse, hpass, hdone⟩ := Takes.of_bind hmade
    obtain ⟨rfl, rfl⟩ := List.append_eq_nil_iff.mp hcourse.symm
    cases hdone.of_done.2
    -- After any other outcome the service would have to rest.
    dsimp only at hrest
    split at hrest
    · exact hpass
    · cases hrest
  · intro h
    refine .ask (.ask ?_)
    have hmade : ((pass now).bind fun outcome => .done (outcome, ())).Takes ([] ++ [])
        (.error .cutoffOutOfRange, ()) := Takes.bind h (.done _)
    have hrest : (Script.done (.inr () : Unit ⊕ Unit)).Takes [] (.inr ()) := .done _
    exact Takes.bind hmade hrest

/-! ### Spans of time -/

theorem breaks_iff_of_cutoff {name : String} {interval n : Nat} {span : Span} {now : Instant}
    {pass : Instant → Script (Except HousekeepingError PassStats)}
    (hspan : span.nanos = n * 1000000000)
    (hpass : ∀ course, (pass now).Takes course (.error .cutoffOutOfRange) ↔
      now.sub? span = none ∧ course = []) :
    (now.sub? span = none ↔ now.secondsBack < n) ∧ (Breaks (pass now) ↔ now.secondsBack < n) ∧
      ((Service.independent name interval pass).EndsAt now ↔ now.secondsBack < n) := by
  have hnone : now.sub? span = none ↔ now.secondsBack < n := Instant.sub?_eq_none_iff hspan
  rw [← hnone, Service.endsAt_independent_iff, hpass, Breaks]
  simp only [hpass, exists_and_left, exists_eq, and_true]

theorem LateRuns.breaks_iff {s : LateRuns} {n : Nat} (h : s.after.nanos = n * 1000000000)
    (now : Instant) :
    (s.cutoff? now = none ↔ now.secondsBack < n) ∧ (Breaks (s.pass now) ↔ now.secondsBack < n) ∧
      (s.service.EndsAt now ↔ now.secondsBack < n) :=
  breaks_iff_of_cutoff h fun _ => takes_cutoffOutOfRange_iff

theorem CancellationCleanup.breaks_iff {s : CancellationCleanup} {n : Nat}
    (h : s.lookback.nanos = n * 1000000000) (now : Instant) :
    (now.sub? s.lookback = none ↔ now.secondsBack < n) ∧
      (Breaks (s.pass now) ↔ now.secondsBack < n) ∧
      (s.service.EndsAt now ↔ now.secondsBack < n) :=
  breaks_iff_of_cutoff h fun _ => takes_cutoffOutOfRange_iff

namespace ResolvedSettings

variable {r : ResolvedSettings} {late : LateRuns} {cleanup : CancellationCleanup} {now : Instant}

/-! ### Settings -/

theorem of_span_bind {α : Type} {seconds : UInt64} {f : Span → Except SpanOutOfRange α} {a : α}
    (h : (span seconds >>= f) = .ok a) :
    ∃ d : Span, d.nanos = seconds.toNat * 1000000000 ∧ f d = .ok a := by
  unfold span Span.ofSeconds? at h
  split_ifs at h with hheld
  · exact ⟨.ofSeconds seconds.toNat hheld, rfl, h⟩
  · cases h

theorem after_of_lateRuns (h : r.lateRuns = .ok late) :
    late.after.nanos = r.settings.lateRuns.afterSeconds.toNat * 1000000000 := by
  obtain ⟨d, hd, hlate⟩ := of_span_bind h
  cases hlate
  exact hd

theorem lookback_of_cancellationCleanup (h : r.cancellationCleanup = .ok cleanup) :
    cleanup.lookback.nanos = r.settings.cancellationCleanup.lookbackSeconds.toNat * 1000000000 := by
  obtain ⟨d, hd, hcleanup⟩ := of_span_bind h
  cases hcleanup
  exact hd

/-- **A span that reaches back beyond the calendar breaks the pass.** For settings that resolve and
whose spans can be held, the pass over late runs and the clean-up have a cutoff in the calendar
exactly as long as it goes back far enough from `now`. Otherwise the pass breaks, and the loop of
the service is over. In the years 1970 to 9999 the calendar goes back at least 8334601228800
seconds, so that shorter spans are safe, and at most 8588003529600, so that longer ones always
break. -/
theorem passes_break_iff {s : Settings} {userHome : Option String}
    (hr : s.resolve userHome = .ok r) (hlate : r.lateRuns = .ok late)
    (hcleanup : r.cancellationCleanup = .ok cleanup) (hfirst : 1970 ≤ now.year)
    (hlast : now.year ≤ 9999) :
    let tooFar (seconds : UInt64) : Prop := now.secondsBack < seconds.toNat
    ((late.cutoff? now = none ↔ tooFar s.lateRuns.afterSeconds) ∧
      (Breaks (late.pass now) ↔ tooFar s.lateRuns.afterSeconds) ∧
      (late.service.EndsAt now ↔ tooFar s.lateRuns.afterSeconds)) ∧
    ((now.sub? cleanup.lookback = none ↔ tooFar s.cancellationCleanup.lookbackSeconds) ∧
      (Breaks (cleanup.pass now) ↔ tooFar s.cancellationCleanup.lookbackSeconds) ∧
      (cleanup.service.EndsAt now ↔ tooFar s.cancellationCleanup.lookbackSeconds)) ∧
    8334601228800 ≤ now.secondsBack ∧ now.secondsBack ≤ 8588003529600 := by
  have hsettings := Settings.settings_of_resolve hr
  have hafter := after_of_lateRuns hlate
  have hlookback := lookback_of_cancellationCleanup hcleanup
  rw [hsettings] at hafter hlookback
  exact ⟨LateRuns.breaks_iff hafter now, CancellationCleanup.breaks_iff hlookback now,
    Instant.secondsBack_bounds hfirst hlast⟩

/-- Runs are late after some 285000 years. -/
def patient : Settings := { lateRuns := { afterSeconds := 9000000000000 } }

def patientResolved : ResolvedSettings where
  settings := patient
  home := "/home/u/.flowgrid"
  storePath := "/home/u/.flowgrid/flowgrid.redb"

def patientLateRuns : LateRuns where
  lifecycle := patientResolved.lifecycle
  after := .ofSeconds 9000000000000

def patientCleanup : CancellationCleanup where
  lifecycle := patientResolved.lifecycle

theorem resolve_patient : patient.resolve (some "/home/u") = .ok patientResolved := by
  cbv

/-- In 1970 the calendar does not go back that far, while a clean-up that goes a day back works. -/
theorem passes_break_of_patient :
    patient.resolve (some "/home/u") = .ok patientResolved ∧
      patientResolved.lateRuns = .ok patientLateRuns ∧
      patientResolved.cancellationCleanup = .ok patientCleanup ∧
      1970 ≤ Instant.epoch.year ∧ Instant.epoch.year ≤ 9999 ∧
      patientLateRuns.service.EndsAt .epoch ∧ ¬ patientCleanup.service.EndsAt .epoch := by
  have hlate : patientResolved.lateRuns = .ok patientLateRuns := rfl
  have hcleanup : patientResolved.cancellationCleanup = .ok patientCleanup := rfl
  have hfirst : 1970 ≤ Instant.epoch.year := by decide
  have hlast : Instant.epoch.year ≤ 9999 := by decide
  obtain ⟨⟨_, _, hlateEnds⟩, ⟨_, _, hcleanupEnds⟩, _⟩ :=
    passes_break_iff resolve_patient hlate hcleanup hfirst hlast
  refine ⟨resolve_patient, hlate, hcleanup, hfirst, hlast, hlateEnds.mpr ?_,
    fun h => absurd (hcleanupEnds.mp h) ?_⟩
  · decide
  · decide

/-- Settings that resolve, and whose spans can be held, do not keep the cutoffs in the calendar and
the passes from breaking. -/
theorem not_passes_safe :
    ¬ ∀ (s : Settings) (userHome : Option String) (r : ResolvedSettings) (late : LateRuns)
      (cleanup : CancellationCleanup) (now : Instant),
      s.resolve userHome = .ok r → r.lateRuns = .ok late → r.cancellationCleanup = .ok cleanup →
      1970 ≤ now.year → now.year ≤ 9999 →
      ((late.cutoff? now).isSome = true ∧ ¬ Breaks (late.pass now)) ∧
        (now.sub? cleanup.lookback).isSome = true ∧ ¬ Breaks (cleanup.pass now) := by
  intro h
  obtain ⟨⟨_, hsafe⟩, _⟩ := h patient _ patientResolved patientLateRuns patientCleanup .epoch
    resolve_patient rfl rfl (by decide) (by decide)
  refine hsafe (((LateRuns.breaks_iff (n := 9000000000000) rfl .epoch).2.1).mpr ?_)
  decide

end ResolvedSettings

end RunScheduler
