import RunScheduler.Proofs.Store.Answers

/-!
# Scripts that are alone with a store

A store that nobody else works on answers each request of a script, or fails to where it may
(`Store.Replies`). What a script does to it is then up to the script: `Script.EndsOn` says that it
comes to an end, and `Script.Achieves` also what is true of its exchanges, of the store and of its
result by then.

There is one rule for each form of script. A loop takes something that is true between its rounds
together with a number that each round makes smaller (`Achieves.repeatFrom`).
-/

namespace RunScheduler

namespace Store

/-- The store answers, or fails where it may. -/
inductive Replies (fails : Exchange → Prop) (s : Store) (x : Exchange) : Store → Prop
  | answered {s' : Store} (h : Answers s x s') : Replies fails s x s'
  | failed (h : x.Failed) (hmay : fails x) : Replies fails s x s

/-- The store replies to one request after another. -/
inductive Attends (fails : Exchange → Prop) : Store → List Exchange → Store → Prop
  | nil (s : Store) : Attends fails s [] s
  | cons {s s₁ s' : Store} {x : Exchange} {course : List Exchange} (hreply : s.Replies fails x s₁)
      (h : Attends fails s₁ course s') : Attends fails s (x :: course) s'

variable {fails : Exchange → Prop} {s s₁ s' : Store} {course course' : List Exchange}

theorem Attends.append (h : Attends fails s course s₁) (h' : Attends fails s₁ course' s') :
    Attends fails s (course ++ course') s' := by
  induction h with
  | nil => exact h'
  | cons hreply _ ih => exact .cons hreply (ih h')

theorem Attends.of_append (h : Attends fails s (course ++ course') s') :
    ∃ s₁, Attends fails s course s₁ ∧ Attends fails s₁ course' s' := by
  induction course generalizing s with
  | nil => exact ⟨s, .nil s, h⟩
  | cons x course ih =>
    cases h with
    | cons hreply h =>
      obtain ⟨s₁, hfirst, hrest⟩ := ih h
      exact ⟨s₁, .cons hreply hfirst, hrest⟩

theorem Replies.of_query {filter : RunFilter} {reply : Except StoreError (List Run)}
    (hnever : ∀ filter e, ¬ fails ⟨.query filter, Except.error e⟩)
    (h : s.Replies fails ⟨.query filter, reply⟩ s') : reply = .ok (s.query filter) ∧ s' = s := by
  cases h with
  | answered h =>
    cases h with
    | query => exact ⟨rfl, rfl⟩
    | elsewhere h => cases h
  | failed h hmay =>
    cases h with
    | query filter e => exact absurd hmay (hnever filter e)

theorem Replies.of_not_isForStore {x : Exchange} (hx : x.request.isForStore = false)
    (h : s.Replies fails x s') : s' = s := by
  cases h with
  | answered h =>
    cases h with
    | elsewhere => rfl
    | _ => cases hx
  | failed => rfl

end Store

namespace Script

open Store

/-- The script comes to an end on a store that replies to it alone, and has a reply to all that it
asks for. -/
inductive EndsOn (fails : Exchange → Prop) : {α : Type} → Store → Script α → Prop
  | done {α : Type} (s : Store) (a : α) : EndsOn fails s (.done a)
  | ask {α : Type} {s : Store} {request : Request} {go : request.Reply → Script α}
      (hreply : ∃ reply s', s.Replies fails ⟨request, reply⟩ s')
      (h : ∀ reply s', s.Replies fails ⟨request, reply⟩ s' → EndsOn fails s' (go reply)) :
      EndsOn fails s (.ask request go)
  | loop {σ β α : Type} {s : Store} {here : σ} {body : σ → Script (σ ⊕ β)} {go : β → Script α}
      (hbody : EndsOn fails s (body here))
      (hagain : ∀ course s' next, (body here).Takes course (.inl next) →
        s.Attends fails course s' → EndsOn fails s' (.loop next body go))
      (henough : ∀ course s' b, (body here).Takes course (.inr b) →
        s.Attends fails course s' → EndsOn fails s' (go b)) :
      EndsOn fails s (.loop here body go)

variable {α β : Type} {fails : Exchange → Prop} {s : Store}

theorem EndsOn.bind {script : Script α} {f : α → Script β} (h : EndsOn fails s script)
    (hf : ∀ course s' a, script.Takes course a → s.Attends fails course s' →
      EndsOn fails s' (f a)) : EndsOn fails s (script.bind f) := by
  induction h with
  | done s a => exact hf [] s a (.done a) (.nil s)
  | ask hreply _ ih =>
    refine .ask hreply fun reply s₁ hfirst => ih reply s₁ hfirst fun course s' a htakes h => ?_
    exact hf _ s' a (.ask htakes) (.cons hfirst h)
  | loop hbody _ _ _ ihagain ihenough =>
    refine .loop hbody (fun first s₁ next hround hfirst => ?_) fun first s₁ b hround hfirst => ?_
    · refine ihagain first s₁ next hround hfirst fun rest s' a hrest h => ?_
      exact hf _ s' a (.again hround hrest) (hfirst.append h)
    · refine ihenough first s₁ b hround hfirst fun rest s' a hrest h => ?_
      exact hf _ s' a (.enough hround hrest) (hfirst.append h)

theorem EndsOn.exists_takes {script : Script α} (h : EndsOn fails s script) :
    ∃ course s' a, script.Takes course a ∧ s.Attends fails course s' := by
  induction h with
  | done s a => exact ⟨[], s, a, .done a, .nil s⟩
  | ask hreply _ ih =>
    obtain ⟨reply, s₁, hfirst⟩ := hreply
    obtain ⟨course, s', a, htakes, h⟩ := ih reply s₁ hfirst
    exact ⟨_, s', a, .ask htakes, .cons hfirst h⟩
  | loop _ _ _ ih ihagain ihenough =>
    obtain ⟨first, s₁, outcome, hround, hfirst⟩ := ih
    cases outcome with
    | inl next =>
      obtain ⟨rest, s', a, hrest, h⟩ := ihagain first s₁ next hround hfirst
      exact ⟨_, s', a, .again hround hrest, hfirst.append h⟩
    | inr b =>
      obtain ⟨rest, s', a, hrest, h⟩ := ihenough first s₁ b hround hfirst
      exact ⟨_, s', a, .enough hround hrest, hfirst.append h⟩

/-- The script comes to an end, and what is claimed of its exchanges, of the store and of its
result is true then. -/
structure Achieves (fails : Exchange → Prop) (s : Store) (script : Script α)
    (claim : List Exchange → Store → α → Prop) : Prop where
  ends : EndsOn fails s script
  claim : ∀ course s' a, script.Takes course a → s.Attends fails course s' → claim course s' a

variable {claim claim' : List Exchange → Store → α → Prop}

theorem Achieves.done {a : α} (h : claim [] s a) : Achieves fails s (.done a) claim where
  ends := .done s a
  claim course s' b htakes hattends := by
    obtain ⟨rfl, rfl⟩ := htakes.of_done
    cases hattends
    exact h

theorem Achieves.ask {request : Request} {go : request.Reply → Script α}
    (hreply : ∃ reply s', s.Replies fails ⟨request, reply⟩ s')
    (h : ∀ reply s', s.Replies fails ⟨request, reply⟩ s' →
      Achieves fails s' (go reply) fun course => claim (⟨request, reply⟩ :: course)) :
    Achieves fails s (.ask request go) claim where
  ends := .ask hreply fun reply s' hfirst => (h reply s' hfirst).ends
  claim course s' a htakes hattends := by
    cases htakes with
    | ask htakes =>
      cases hattends with
      | cons hfirst hattends => exact (h _ _ hfirst).claim _ s' a htakes hattends

theorem Achieves.mono {script : Script α} (h : Achieves fails s script claim)
    (himp : ∀ course s' a, claim course s' a → claim' course s' a) :
    Achieves fails s script claim' where
  ends := h.ends
  claim course s' a htakes hattends := himp course s' a (h.claim course s' a htakes hattends)

theorem Achieves.bind {script : Script α} {f : α → Script β}
    {claim' : List Exchange → Store → β → Prop} (h : Achieves fails s script claim)
    (hf : ∀ course s' a, claim course s' a →
      Achieves fails s' (f a) fun later => claim' (course ++ later)) :
    Achieves fails s (script.bind f) claim' where
  ends := h.ends.bind fun course s' a htakes hattends =>
    (hf course s' a (h.claim course s' a htakes hattends)).ends
  claim course s' b htakes hattends := by
    obtain ⟨first, rest, a, rfl, hfirst, hrest⟩ := Takes.of_bind htakes
    obtain ⟨s₁, hbefore, hafter⟩ := hattends.of_append
    exact (hf first s₁ a (h.claim first s₁ a hfirst hbefore)).claim rest s' b hrest hafter

/-- A loop achieves what its last round does, if every other round leaves less to be done. -/
theorem Achieves.repeatFrom {σ : Type} {body : σ → Script (σ ⊕ β)}
    {claim : List Exchange → Store → β → Prop} (inv : Nat → List Exchange → Store → σ → Prop)
    {left : Nat} {here : σ} (hinv : inv left [] s here)
    (hbody : ∀ left past s here, inv left past s here →
      Achieves fails s (body here) fun course s' =>
        Sum.elim (fun next => ∃ less < left, inv less (past ++ course) s' next)
          (claim (past ++ course) s')) :
    Achieves fails s (repeatFrom here body) claim := by
  suffices h : ∀ past, inv left past s here →
      Achieves fails s (Script.repeatFrom here body) fun course => claim (past ++ course) by
    exact h [] hinv
  clear hinv
  induction left using Nat.strong_induction_on generalizing s here with
  | _ left ih =>
    intro past hinv
    have hround := hbody left past s here hinv
    refine ⟨.loop hround.ends (fun course s₁ next htakes hattends => ?_)
      fun _ s₁ b _ _ => .done s₁ b, fun course s' b htakes hattends => ?_⟩
    · obtain ⟨less, hless, hnext⟩ := hround.claim course s₁ _ htakes hattends
      exact (ih less hless _ hnext).ends
    · rw [Script.repeatFrom] at htakes
      cases htakes with
      | again hfirst hrest =>
        obtain ⟨s₁, hbefore, hafter⟩ := hattends.of_append
        obtain ⟨less, hless, hnext⟩ := hround.claim _ s₁ _ hfirst hbefore
        rw [← List.append_assoc]
        exact (ih less hless _ hnext).claim _ s' b hrest hafter
      | enough hlast hrest =>
        obtain ⟨rfl, rfl⟩ := hrest.of_done
        rw [List.append_nil] at hattends ⊢
        exact hround.claim _ s' _ hlast hattends

end Script

end RunScheduler
