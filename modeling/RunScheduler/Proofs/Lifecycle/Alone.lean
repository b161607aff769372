import RunScheduler.Proofs.Lifecycle.Course
import RunScheduler.Proofs.Store.Alone

/-!
# Changes to runs by one script alone

Where nobody else works on the store, a move that the store would make either succeeds or fails in
a way that leaves the store as it is (`achieves_transition`). Trying again and making the move known
does not change the store.
-/

namespace RunScheduler

namespace Script

open Store

variable {α : Type} {fails : Exchange → Prop} {s : Store}

theorem Achieves.takes {script : Script α} {claim : List Exchange → Store → α → Prop}
    (h : Achieves fails s script claim) :
    Achieves fails s script fun course s' a => script.Takes course a ∧ claim course s' a where
  ends := h.ends
  claim course s' a htakes hattends := ⟨htakes, h.claim course s' a htakes hattends⟩

theorem Achieves.call_elsewhere {request : Request} (h : request.isForStore = false)
    (reply : request.Reply) : Achieves fails s (call request) fun _ s' _ => s' = s := by
  refine .ask ⟨reply, s, .answered (.elsewhere h)⟩ fun reply s' hreply => .done ?_
  exact hreply.of_not_isForStore h

/-- If a failure leaves the store as it is, the script starts again where it started before. -/
theorem Achieves.retry {policy : RetryPolicy} {script : Script (Except StoreError α)}
    (claim : Store → Except StoreError α → Prop)
    (h : Achieves fails s script fun _ s' outcome =>
      claim s' outcome ∧ ∀ e, outcome = .error e → s' = s) :
    Achieves fails s (retry policy script) fun _ => claim := by
  have hfrom : ∀ more attempt,
      Achieves fails s (policy.retryFrom Script.wait script more attempt) fun _ => claim := by
    intro more
    induction more with
    | zero => exact fun _ => h.mono fun _ _ _ hclaim => hclaim.1
    | succ more ih =>
      intro attempt
      refine Achieves.bind h fun _ s' outcome ⟨hclaim, hfailed⟩ => ?_
      cases outcome with
      | ok a => exact .done hclaim
      | error e =>
        obtain rfl := hfailed e rfl
        dsimp only
        split_ifs
        · refine Achieves.bind (Achieves.call_elsewhere rfl ()) fun _ s' _ hs' => ?_
          obtain rfl := hs'
          exact ih _
        · exact .done hclaim
  exact hfrom _ _

end Script

namespace Lifecycle

open Script Store

variable {l : Lifecycle} {fails : Exchange → Prop} {s s₁ : Store}

theorem achieves_callHooks (previous : Option StateKind) (run : Run) (names : List String)
    (place : Nat) :
    Achieves fails s (callHooks previous run names place) fun _ s' _ => s' = s := by
  induction names generalizing s place with
  | nil => exact .done rfl
  | cons name names ih =>
    rw [callHooks]
    refine Achieves.bind (Achieves.call_elsewhere rfl none) fun _ s' answer hs' => ?_
    obtain rfl := hs'
    cases answer with
    | none => exact ih _
    | some messages =>
      refine Achieves.bind (Achieves.call_elsewhere rfl ()) fun _ s' _ hs' => ?_
      obtain rfl := hs'
      exact ih _

theorem achieves_afterChange (previous : Option StateKind) (run : Run) :
    Achieves fails s (l.afterChange previous run) fun _ s' _ => s' = s := by
  have hend : Achieves fails s (if run.state.isTerminal then
      Script.call (.emit (.runEnded run.id run.deployment run.kind run.state.time))
    else pure ()) fun _ s' (_ : Unit) => s' = s := by
    split_ifs
    · exact Achieves.call_elsewhere rfl ()
    · exact .done rfl
  rw [afterChange]
  refine Achieves.bind (achieves_callHooks previous run l.hooks 0) fun _ s' _ hs' => ?_
  obtain rfl := hs'
  exact hend

/-- The outcomes of a move that the store would make: it has made it, or it has failed. -/
inductive Moves (l : Lifecycle) (fails : Exchange → Prop) (id : RunId) (expected : Expected)
    (next : State) (s s₁ : Store) (moved : Run) : Store → Except TransitionError Run → Prop
  | made : Moves l fails id expected next s s₁ moved s₁ (.ok moved)
  | failed {e : StoreError} (hmay : fails ⟨.commit id expected next, Except.error e⟩) :
      Moves l fails id expected next s s₁ moved s (.error (.ofStore l.retry.attempts e))

theorem achieves_commit {id : RunId} {expected : Expected} {next : State} {moved : Run}
    (hcommit : s.commit id expected next = .ok (s₁, moved)) :
    Achieves fails s (Script.call (.commit id expected next)) fun _ s' outcome =>
      (outcome = .ok moved ∧ s' = s₁ ∨
        ∃ e, outcome = .error e ∧ fails ⟨.commit id expected next, Except.error e⟩ ∧ s' = s) ∧
      ∀ e, outcome = .error e → s' = s := by
  refine .ask ⟨.ok moved, s₁, .answered (.commit hcommit)⟩ fun reply s' hreply => .done ?_
  cases hreply with
  | answered h =>
    cases h with
    | commit h =>
      rw [hcommit] at h
      cases h
      exact ⟨Or.inl ⟨rfl, rfl⟩, fun e he => by cases he⟩
    | commitRejected h =>
      rw [hcommit] at h
      cases h
    | elsewhere h => cases h
  | failed h hmay =>
    cases h with
    | commit _ _ _ e => exact ⟨Or.inr ⟨e, rfl, hmay, rfl⟩, fun _ _ => rfl⟩

theorem achieves_transition {id : RunId} {expected : Expected} {next : State} {moved : Run}
    (hcommit : s.commit id expected next = .ok (s₁, moved)) :
    Achieves fails s (l.transition id expected next) fun _ =>
      l.Moves fails id expected next s s₁ moved := by
  rw [transition]
  refine Achieves.bind (Achieves.retry _ (achieves_commit hcommit)) ?_
  rintro _ _ _ (⟨rfl, rfl⟩ | ⟨e, rfl, hmay, rfl⟩)
  · refine Achieves.bind (achieves_afterChange _ moved) fun _ _ _ hs' => ?_
    obtain rfl := hs'
    exact .done .made
  · exact .done (.failed hmay)

end Lifecycle

end RunScheduler
