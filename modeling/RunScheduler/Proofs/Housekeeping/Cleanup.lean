import RunScheduler.Housekeeping.CancellationCleanup
import RunScheduler.Proofs.Lifecycle.Course
import RunScheduler.Proofs.Script.Protocol
import RunScheduler.Proofs.Store.Selection

/-!
# What a clean-up asks for

A clean-up sees cancelled runs and, page by page, children of runs it has seen (`Seen`). All runs on
its stack were seen, and it only cancels runs that were seen as children (`Cleans`). This is kept up
by each of the loops of the walk, from a single child (`keepsTo_cancelChild`) to the whole pass
(`keepsTo_pass`).

Parents never change and a cancelled run stays so. Whatever others do meanwhile, a run that was
seen as a child is therefore below a cancelled run when it is cancelled
(`Store.Undergoes.belowCancelled`).
-/

namespace RunScheduler

/-! ### Runs below others -/

namespace Store

/-- The run that is stored under an id has this parent. -/
def ParentOf (s : Store) (id parent : RunId) : Prop :=
  ∃ r, s.getRun id = some r ∧ r.parent = some parent

/-- The run is cancelled, or a chain of parents leads from it to one that is. -/
def BelowCancelled (s : Store) (id : RunId) : Prop :=
  ∃ root r, Relation.ReflTransGen s.ParentOf id root ∧ s.getRun root = some r ∧
    r.kind = .cancelled

end Store

namespace CancellationCleanup

open Script

variable {past : List Exchange} {id : RunId}

/-! ### What was seen -/

/-- A page of the children of a run had this run. -/
def ChildRead (past : List Exchange) (parent : RunId) (child : Run) : Prop :=
  ∃ limit offset runs, (⟨.query (RunFilter.page { parent := some parent } limit offset),
    Except.ok runs⟩ : Exchange) ∈ past ∧ child ∈ runs

/-- A page of cancelled runs had this run. -/
def CancelledRead (past : List Exchange) (root : Run) : Prop :=
  ∃ since limit offset runs,
    (⟨.query (RunFilter.page { kinds := [.cancelled], updatedSince := some since } limit offset),
      Except.ok runs⟩ : Exchange) ∈ past ∧ root ∈ runs

/-- The walk has come to the run. -/
inductive Seen (past : List Exchange) : RunId → Prop
  | root {r : Run} (h : CancelledRead past r) : Seen past r.id
  | child {parent : RunId} {r : Run} (hparent : Seen past parent) (h : ChildRead past parent r) :
      Seen past r.id

theorem ChildRead.append {parent : RunId} {child : Run} (h : ChildRead past parent child)
    (later : List Exchange) : ChildRead (past ++ later) parent child := by
  obtain ⟨limit, offset, runs, hread, hchild⟩ := h
  exact ⟨limit, offset, runs, List.mem_append_left _ hread, hchild⟩

theorem CancelledRead.append {root : Run} (h : CancelledRead past root) (later : List Exchange) :
    CancelledRead (past ++ later) root := by
  obtain ⟨since, limit, offset, runs, hread, hroot⟩ := h
  exact ⟨since, limit, offset, runs, List.mem_append_left _ hread, hroot⟩

theorem Seen.append (h : Seen past id) (later : List Exchange) : Seen (past ++ later) id := by
  induction h with
  | root h => exact .root (h.append later)
  | child _ h ih => exact .child ih (h.append later)

/-- The request may be made by a clean-up after what was exchanged. -/
inductive Cleans (past : List Exchange) : Request → Prop
  | page (filter : RunFilter) : Cleans past (.query filter)
  | cancel {parent : RunId} {child : Run} {expected : Expected} {next : State}
      (hparent : Seen past parent) (hchild : ChildRead past parent child)
      (hnext : next.kind = .cancelled) : Cleans past (.commit child.id expected next)
  | elsewhere {request : Request} (h : request.isForStore = false) : Cleans past request

/-! ### The loops of the walk -/

section Walk

variable (cleanup : CancellationCleanup) (now : Instant)

/-- The walk was at all runs on its stack. -/
def StackSeen (past : List Exchange) (w : Walk) : Prop :=
  ∀ id ∈ w.stack, Seen past id

theorem StackSeen.append {w : Walk} (h : StackSeen past w) (later : List Exchange) :
    StackSeen (past ++ later) w :=
  fun id hid => (h id hid).append later

theorem keepsTo_cancelChild {w : Walk} {parent : RunId} {child : Run} (hw : StackSeen past w)
    (hparent : Seen past parent) (hchild : ChildRead past parent child) :
    KeepsTo Cleans past (cleanup.cancelChild now w child) StackSeen := by
  have hpushed : ∀ later, ∀ id ∈ child.id :: w.stack, Seen (past ++ later) id := by
    intro later id hid
    rcases List.mem_cons.mp hid with rfl | hid
    · exact .child (hparent.append later) (hchild.append later)
    · exact hw.append later id hid
  rw [cancelChild]
  split_ifs with hended
  · refine .done fun id hid => ?_
    have hseen := hpushed [] id hid
    rwa [List.append_nil] at hseen
  · refine KeepsTo.bind (KeepsTo.of_asks Lifecycle.asks_transition ?_) ?_
    · rintro later request (rfl | hrequest)
      · exact .cancel (hparent.append later) (hchild.append later) rfl
      · exact .elsewhere hrequest
    · rintro _ outcome ⟨course, rfl, _⟩
      exact .done (hpushed course)

theorem keepsTo_cancelChildren {w : Walk} {parent : RunId} {children : List Run}
    (hw : StackSeen past w) (hparent : Seen past parent)
    (hchildren : ∀ child ∈ children, ChildRead past parent child) :
    KeepsTo Cleans past (cleanup.cancelChildren now w children) StackSeen := by
  induction children generalizing past w with
  | nil => exact .done hw
  | cons child children ih =>
    have hfirst := keepsTo_cancelChild cleanup now hw hparent (hchildren child List.mem_cons_self)
    refine KeepsTo.bind hfirst.since ?_
    rintro _ w' ⟨later, rfl, hw'⟩
    exact ih hw' (hparent.append later) fun other hother =>
      (hchildren other (List.mem_cons_of_mem _ hother)).append later

/-- Where a walk ends without an error, it was at all runs left on its stack. -/
def OutcomeSeen (past : List Exchange) (outcome : Outcome) : Prop :=
  ∀ w, outcome = .ok w → StackSeen past w

theorem keepsTo_children {w : Walk} {parent : RunId} (hw : StackSeen past w)
    (hparent : Seen past parent) :
    KeepsTo Cleans past (repeatFrom (0, w) (cleanup.childrenStep now parent)) OutcomeSeen := by
  refine KeepsTo.repeatFrom (fun past s => StackSeen past s.2 ∧ Seen past parent) ⟨hw, hparent⟩ ?_
  rintro past ⟨offset, w⟩ ⟨hw, hparent⟩
  refine KeepsTo.ask (.page _) fun reply => ?_
  cases reply with
  | error e => exact .done fun _ h => by cases h
  | ok children =>
    generalize hpage : (⟨.query (RunFilter.page { parent := some parent } cleanup.limit offset),
      Except.ok children⟩ : Exchange) = page
    have hchildren : ∀ child ∈ children, ChildRead (past ++ [page]) parent child := by
      intro child hchild
      rw [← hpage]
      exact ⟨_, _, children, List.mem_append_right _ List.mem_cons_self, hchild⟩
    show KeepsTo _ _ (Script.bind (cleanup.cancelChildren now w children) _) _
    have hpushed := keepsTo_cancelChildren cleanup now (hw.append [page]) (hparent.append [page])
      hchildren
    refine KeepsTo.bind hpushed.since ?_
    rintro _ w' ⟨later, rfl, hw'⟩
    show KeepsTo _ _ (if children.length < cleanup.limit then Script.done _ else Script.done _) _
    split_ifs
    · exact .done fun _ h => by cases h; exact hw'
    · exact .done ⟨hw', (hparent.append _).append _⟩

theorem keepsTo_descendants {w : Walk} (hw : StackSeen past w) :
    KeepsTo Cleans past (repeatFrom w (cleanup.descendantsStep now)) OutcomeSeen := by
  refine KeepsTo.repeatFrom StackSeen hw fun past w hw => ?_
  rw [descendantsStep.eq_def]
  split
  · exact .done fun _ h => by cases h; exact hw
  · rename_i parent stack hstack
    have hparent : Seen past parent := hw parent (hstack ▸ List.mem_cons_self)
    have hrest : ∀ id ∈ stack, Seen past id := fun id hid =>
      hw id (hstack ▸ List.mem_cons_of_mem _ hid)
    dsimp only
    split_ifs
    · exact .done hrest
    · have hwalk : StackSeen past
          { w with stack := stack, visited := parent :: w.visited } := hrest
      refine KeepsTo.bind (keepsTo_children cleanup now hwalk hparent) ?_
      intro past outcome houtcome
      cases outcome with
      | error e => exact .done fun _ h => by cases h
      | ok w' => exact .done (houtcome w' rfl)

theorem keepsTo_cancelBelow {w : Walk} {roots : List Run}
    (hroots : ∀ root ∈ roots, CancelledRead past root) :
    KeepsTo Cleans past (cleanup.cancelBelow now w roots) fun _ _ => True := by
  induction roots generalizing past w with
  | nil => exact .done trivial
  | cons root roots ih =>
    have hstack : StackSeen past { w with stack := [root.id] } := by
      intro id hid
      rw [List.mem_singleton.mp hid]
      exact .root (hroots root List.mem_cons_self)
    have hbelow := keepsTo_descendants cleanup now hstack
    refine KeepsTo.bind hbelow.since ?_
    rintro _ outcome ⟨later, rfl, _⟩
    cases outcome with
    | error e => exact .done trivial
    | ok w' =>
      exact ih fun other hother => (hroots other (List.mem_cons_of_mem _ hother)).append later

theorem keepsTo_pass : KeepsTo Cleans [] (cleanup.pass now) fun _ _ => True := by
  rw [pass]
  cases now.sub? cleanup.lookback with
  | none => exact .done trivial
  | some since =>
    have hpages : KeepsTo Cleans [] (repeatFrom (0, {}) (cleanup.passStep now since))
        fun _ _ => True := by
      refine KeepsTo.repeatFrom (fun _ _ => True) trivial ?_
      rintro past ⟨offset, w⟩ -
      refine KeepsTo.ask (.page _) fun reply => ?_
      cases reply with
      | error e => exact .done trivial
      | ok roots =>
        generalize hpage : (⟨.query (RunFilter.page
          { kinds := [.cancelled], updatedSince := some since } cleanup.limit offset),
          Except.ok roots⟩ : Exchange) = page
        have hroots : ∀ root ∈ roots, CancelledRead (past ++ [page]) root := by
          intro root hroot
          rw [← hpage]
          exact ⟨since, _, _, roots, List.mem_append_right _ List.mem_cons_self, hroot⟩
        show KeepsTo _ _ (Script.bind (cleanup.cancelBelow now w roots) _) _
        refine KeepsTo.bind (keepsTo_cancelBelow cleanup now hroots) ?_
        intro past outcome _
        cases outcome with
        | error e => exact .done trivial
        | ok w' =>
          show KeepsTo _ _ (if roots.length < cleanup.limit then Script.done _ else Script.done _) _
          split_ifs
          · exact .done trivial
          · exact .done trivial
    exact KeepsTo.bind hpages fun _ _ _ => .done trivial

end Walk

end CancellationCleanup

/-! ### What was seen, later -/

namespace Store

open CancellationCleanup

variable {ι : Type} [DecidableEq ι] {i : ι} {s s' : Store} {steps : List (Step ι)}

theorem Undergoes.parentOf (hs : s.WellFormed) (h : Undergoes s steps s') {parent : RunId}
    {child : Run} (hread : ChildRead (Step.courseOf i steps) parent child) :
    s'.ParentOf child.id parent := by
  obtain ⟨limit, offset, runs, hread, hchild⟩ := hread
  obtain ⟨hselects, r, hget, hgrows⟩ := h.of_read hs hread hchild
  exact ⟨r, hget, hgrows.parent_eq.trans (RunFilter.parent_eq_of_selects hselects rfl)⟩

theorem Undergoes.cancelled (hs : s.WellFormed) (h : Undergoes s steps s') {root : Run}
    (hread : CancelledRead (Step.courseOf i steps) root) :
    s'.getRun root.id = some root ∧ root.kind = .cancelled := by
  obtain ⟨since, limit, offset, runs, hread, hroot⟩ := hread
  obtain ⟨hselects, r, hget, hgrows⟩ := h.of_read hs hread hroot
  have hkind : root.kind = .cancelled :=
    List.mem_singleton.mp (RunFilter.kind_mem_of_selects hselects (List.cons_ne_nil _ _))
  rw [hgrows.eq_of_isTerminal (by rw [hkind]; rfl)] at hget
  exact ⟨hget, hkind⟩

/-- All runs that a clean-up has come to are cancelled or below cancelled runs. -/
theorem Undergoes.belowCancelled (hs : s.WellFormed) (h : Undergoes s steps s') {id : RunId}
    (hseen : Seen (Step.courseOf i steps) id) : s'.BelowCancelled id := by
  induction hseen with
  | @root r hread =>
    obtain ⟨hget, hkind⟩ := h.cancelled hs hread
    exact ⟨r.id, r, .refl, hget, hkind⟩
  | child _ hread ih =>
    obtain ⟨root, r, hchain, hget, hkind⟩ := ih
    exact ⟨root, r, .head (h.parentOf hs hread) hchain, hget, hkind⟩

end Store

end RunScheduler
