import Mathlib.Algebra.BigOperators.Fin
import RunScheduler.Script

/-!
# Courses of scripts

A script that runs to its end exchanges requests and replies in some order and gives a result
(`Script.Takes`). Jobs that run side by side mix their exchanges in any order in which no more of
them are in progress at once than the limit allows.

Courses of scripts that are made of others are made of courses of these (`Takes.of_bind`,
`Takes.of_retry`, `Takes.exists_tries`, `Takes.of_all`).
-/

namespace RunScheduler

/-- A request and what it was answered with. -/
structure Exchange where
  request : Request
  reply : request.Reply

namespace Script

/-- What one of several jobs contributes to what all of them exchange. -/
def courseOf {ι : Type} [DecidableEq ι] (i : ι) (mixed : List (ι × Exchange)) : List Exchange :=
  (mixed.filter fun e => e.1 = i).map (·.2)

/-- A job is in progress during an exchange if it has made one by then and has one to make from
then on. There are never more of them than the limit. -/
def KeepsLimit {n : Nat} (limit : Nat) (mixed : List (Fin n × Exchange)) : Prop :=
  ∀ before e after, mixed = before ++ e :: after →
    (Finset.univ.filter fun i => i ∈ (before ++ [e]).map (·.1) ∧ i ∈ (e :: after).map (·.1)).card ≤
      limit

/-- The script may exchange this, in this order, and then be done with this result. -/
inductive Takes : {α : Type} → Script α → List Exchange → α → Prop
  | done {α : Type} (a : α) : Takes (.done a) [] a
  | ask {α : Type} {request : Request} {go : request.Reply → Script α} {reply : request.Reply}
      {course : List Exchange} {a : α} (h : Takes (go reply) course a) :
      Takes (.ask request go) (⟨request, reply⟩ :: course) a
  | again {σ β α : Type} {s s' : σ} {body : σ → Script (σ ⊕ β)} {go : β → Script α}
      {first rest : List Exchange} {a : α} (hbody : Takes (body s) first (.inl s'))
      (h : Takes (.loop s' body go) rest a) : Takes (.loop s body go) (first ++ rest) a
  | enough {σ β α : Type} {s : σ} {b : β} {body : σ → Script (σ ⊕ β)} {go : β → Script α}
      {first rest : List Exchange} {a : α} (hbody : Takes (body s) first (.inr b))
      (h : Takes (go b) rest a) : Takes (.loop s body go) (first ++ rest) a
  | together {β α : Type} {limit n : Nat} {jobs : Fin n → Script β} {go : (Fin n → β) → Script α}
      {mixed : List (Fin n × Exchange)} {results : Fin n → β} {rest : List Exchange} {a : α}
      (hjobs : ∀ i, Takes (jobs i) (courseOf i mixed) (results i))
      (hlimit : KeepsLimit (max limit 1) mixed) (h : Takes (go results) rest a) :
      Takes (.together limit n jobs go) (mixed.map (·.2) ++ rest) a

/-- The script may exchange this to begin with. -/
def Begins {α : Type} (script : Script α) (course : List Exchange) : Prop :=
  ∃ later a, script.Takes (course ++ later) a

variable {α β : Type} {course : List Exchange}

/-! ### Scripts made of others -/

theorem Takes.of_done {a b : α} (h : (Script.done a).Takes course b) : course = [] ∧ b = a := by
  cases h
  exact ⟨rfl, rfl⟩

theorem Takes.of_loop {σ : Type} {s : σ} {body : σ → Script (σ ⊕ β)} {go : β → Script α} {a : α}
    (h : (loop s body go).Takes course a) :
    ∃ first rest b, course = first ++ rest ∧ (repeatFrom s body).Takes first b ∧
      (go b).Takes rest a := by
  generalize hloop : loop s body go = script at h
  induction h generalizing s with
  | done => cases hloop
  | ask => cases hloop
  | together => cases hloop
  | @again _ _ _ _ s' _ _ turn _ _ hbody _ _ ih =>
    cases hloop
    obtain ⟨first, rest, b, rfl, hfirst, hrest⟩ := ih rfl
    exact ⟨turn ++ first, rest, b, (List.append_assoc _ _ _).symm, .again hbody hfirst, hrest⟩
  | @enough _ _ _ _ b _ _ turn rest _ hbody h _ _ =>
    cases hloop
    exact ⟨turn, rest, b, rfl, List.append_nil turn ▸ .enough hbody (.done b), h⟩

theorem Takes.loop {σ : Type} {s : σ} {body : σ → Script (σ ⊕ β)} {go : β → Script α} {a : α}
    {first rest : List Exchange} {b : β} (h : (repeatFrom s body).Takes first b)
    (hrest : (go b).Takes rest a) : (loop s body go).Takes (first ++ rest) a := by
  rw [repeatFrom] at h
  generalize hloop : Script.loop s body .done = script at h
  induction h generalizing s with
  | done => cases hloop
  | ask => cases hloop
  | together => cases hloop
  | again hbody _ _ ih =>
    cases hloop
    rw [List.append_assoc]
    exact .again hbody (ih hrest rfl)
  | enough hbody h _ _ =>
    cases hloop
    cases h
    rw [List.append_nil]
    exact .enough hbody hrest

/-- Induction over the rounds of a loop: what holds of a last round, and of a round followed by
others that it holds of, holds of what the loop exchanges. -/
theorem Takes.repeatFrom_induction {σ : Type} {body : σ → Script (σ ⊕ β)}
    {motive : σ → List Exchange → β → Prop}
    (hagain : ∀ s first s' rest b, (body s).Takes first (.inl s') → motive s' rest b →
      motive s (first ++ rest) b)
    (henough : ∀ s first b, (body s).Takes first (.inr b) → motive s first b)
    {s : σ} {b : β} (h : (repeatFrom s body).Takes course b) : motive s course b := by
  rw [repeatFrom] at h
  generalize hloop : Script.loop s body .done = script at h
  induction h generalizing s with
  | done => cases hloop
  | ask => cases hloop
  | together => cases hloop
  | again hround _ _ ih =>
    cases hloop
    exact hagain _ _ _ _ _ hround (ih hagain henough rfl)
  | enough hround hrest _ _ =>
    cases hloop
    obtain ⟨rfl, rfl⟩ := hrest.of_done
    rw [List.append_nil]
    exact henough _ _ _ hround

theorem Takes.of_bind {script : Script α} {f : α → Script β} {b : β}
    (h : (script.bind f).Takes course b) :
    ∃ first rest a, course = first ++ rest ∧ script.Takes first a ∧ (f a).Takes rest b := by
  induction script generalizing course with
  | done a => exact ⟨[], course, a, rfl, .done a, h⟩
  | ask request go ih =>
    cases h with
    | ask h =>
      obtain ⟨first, rest, a, rfl, hfirst, hrest⟩ := ih _ h
      exact ⟨_, rest, a, rfl, .ask hfirst, hrest⟩
  | loop s body go _ ih =>
    obtain ⟨turns, after, c, rfl, hturns, hafter⟩ := Takes.of_loop h
    obtain ⟨first, rest, a, rfl, hfirst, hrest⟩ := ih c hafter
    exact ⟨_, rest, a, (List.append_assoc _ _ _).symm, .loop hturns hfirst, hrest⟩
  | together limit n jobs go _ ih =>
    cases h with
    | together hjobs hlimit h =>
      obtain ⟨first, rest, a, rfl, hfirst, hrest⟩ := ih _ h
      exact ⟨_, rest, a, (List.append_assoc _ _ _).symm, .together hjobs hlimit hfirst, hrest⟩

theorem Takes.bind {script : Script α} {f : α → Script β} {first rest : List Exchange} {a : α}
    {b : β} (h : script.Takes first a) (hrest : (f a).Takes rest b) :
    (script.bind f).Takes (first ++ rest) b := by
  induction h with
  | done => exact hrest
  | ask _ ih => exact .ask (ih hrest)
  | again hbody _ _ ih =>
    rw [List.append_assoc]
    exact .again hbody (ih hrest)
  | enough hbody _ _ ih =>
    rw [List.append_assoc]
    exact .enough hbody (ih hrest)
  | together hjobs hlimit _ _ ih =>
    rw [List.append_assoc]
    exact .together hjobs hlimit (ih hrest)

theorem Takes.of_call {request : Request} {reply : request.Reply}
    (h : (call request).Takes course reply) : course = [⟨request, reply⟩] := by
  cases h with
  | ask h => rw [(h.of_done).1, (h.of_done).2]

theorem Takes.of_retry {policy : RetryPolicy} {script : Script (Except StoreError α)}
    {result : Except StoreError α} (h : (retry policy script).Takes course result) :
    ∃ first rest outcome, course = first ++ rest ∧ script.Takes first outcome ∧
      ∀ a, outcome = .ok a → rest = [] ∧ result = .ok a := by
  rw [retry, RetryPolicy.retry] at h
  cases hmore : policy.attempts - 1 with
  | zero =>
    rw [hmore, RetryPolicy.retryFrom] at h
    exact ⟨course, [], result, (List.append_nil _).symm, h, fun a ha => ⟨rfl, ha⟩⟩
  | succ more =>
    rw [hmore, RetryPolicy.retryFrom] at h
    obtain ⟨first, rest, outcome, rfl, hfirst, hrest⟩ := Takes.of_bind h
    refine ⟨first, rest, outcome, rfl, hfirst, ?_⟩
    rintro a rfl
    exact hrest.of_done

/-- The last try of a script that is tried again if need be. Before it there are waits, and tries
that fail. -/
theorem Takes.exists_tries {policy : RetryPolicy} {script : Script (Except StoreError α)}
    {result : Except StoreError α} (h : (retry policy script).Takes course result)
    {sort : Exchange → Prop}
    (hsort : ∀ first e, script.Takes first (.error e) → ∀ x ∈ first, sort x) :
    ∃ tries last, course = tries ++ last ∧
      (∀ x ∈ tries, sort x ∨ ∃ milliseconds, x = ⟨.wait milliseconds, ()⟩) ∧
      script.Takes last result := by
  have hnone : ∀ x ∈ ([] : List Exchange),
      sort x ∨ ∃ milliseconds, x = ⟨.wait milliseconds, ()⟩ := by simp
  -- By induction on the tries left, after any number of them: a failed one goes in front of the
  -- rest together with its wait.
  suffices hfrom : ∀ more attempt course,
      (policy.retryFrom Script.wait script more attempt).Takes course result →
      ∃ tries last, course = tries ++ last ∧
        (∀ x ∈ tries, sort x ∨ ∃ milliseconds, x = ⟨.wait milliseconds, ()⟩) ∧
        script.Takes last result from hfrom _ _ _ h
  intro more
  induction more with
  | zero => exact fun _ course h => ⟨[], course, rfl, hnone, h⟩
  | succ more ih =>
    intro attempt course h
    rw [RetryPolicy.retryFrom] at h
    obtain ⟨first, rest, outcome, rfl, hfirst, hrest⟩ := Takes.of_bind h
    cases outcome with
    | ok a =>
      obtain ⟨rfl, rfl⟩ := hrest.of_done
      exact ⟨[], first, List.append_nil _, hnone, hfirst⟩
    | error e =>
      dsimp only at hrest
      split_ifs at hrest
      · obtain ⟨waited, later, _, rfl, hwaited, hlater⟩ := Takes.of_bind hrest
        obtain ⟨tries, last, rfl, htries, hlast⟩ := ih _ _ hlater
        refine ⟨first ++ waited ++ tries, last, by simp, fun x hx => ?_, hlast⟩
        rw [hwaited.of_call] at hx
        simp only [List.mem_append, List.mem_singleton] at hx
        rcases hx with (hx | rfl) | hx
        · exact Or.inl (hsort first e hfirst x hx)
        · exact Or.inr ⟨_, rfl⟩
        · exact htries x hx
      · obtain ⟨rfl, rfl⟩ := hrest.of_done
        exact ⟨[], first, List.append_nil _, hnone, hfirst⟩

/-! ### What a script asks for -/

/-- Whatever the script asks for is of this sort. -/
def Asks (sort : Request → Prop) (script : Script α) : Prop :=
  ∀ course a, script.Takes course a → ∀ x ∈ course, sort x.request

variable {sort : Request → Prop}

theorem Asks.done (a : α) : Asks sort (.done a) := by
  intro course b h x hx
  rw [h.of_done.1] at hx
  cases hx

theorem Asks.call {request : Request} (h : sort request) : Asks sort (call request) := by
  intro course reply htakes x hx
  rw [htakes.of_call, List.mem_singleton] at hx
  rw [hx]
  exact h

theorem Asks.bind {script : Script α} {f : α → Script β} (h : Asks sort script)
    (hf : ∀ a, Asks sort (f a)) : Asks sort (script.bind f) := by
  intro course b htakes x hx
  obtain ⟨first, rest, a, rfl, hfirst, hrest⟩ := Takes.of_bind htakes
  rcases List.mem_append.mp hx with hx | hx
  · exact h first a hfirst x hx
  · exact hf a rest b hrest x hx

theorem Asks.retry {policy : RetryPolicy} {script : Script (Except StoreError α)}
    (h : Asks sort script) (hwait : ∀ milliseconds, sort (.wait milliseconds)) :
    Asks sort (retry policy script) := by
  have hfrom : ∀ more attempt, Asks sort (policy.retryFrom wait script more attempt) := by
    intro more
    induction more with
    | zero => exact fun _ => h
    | succ more ih =>
      intro attempt
      refine Asks.bind h fun outcome => ?_
      cases outcome with
      | ok a => exact .done _
      | error e =>
        dsimp only
        split_ifs
        · exact .bind (.call (hwait _)) fun _ => ih _
        · exact .done _
  exact hfrom _ _

theorem Asks.of_begins {script : Script α} (h : Asks sort script) (hbegins : script.Begins course) :
    ∀ x ∈ course, sort x.request := by
  obtain ⟨later, a, htakes⟩ := hbegins
  exact fun x hx => h _ a htakes x (List.mem_append_left later hx)

/-! ### Jobs side by side -/

theorem mem_courseOf {ι : Type} [DecidableEq ι] {i : ι} {mixed : List (ι × Exchange)}
    {x : Exchange} : x ∈ courseOf i mixed ↔ (i, x) ∈ mixed := by
  simp [courseOf]

theorem sum_courseOf {ι : Type} [Fintype ι] [DecidableEq ι] (count : Exchange → Nat)
    (mixed : List (ι × Exchange)) :
    ((mixed.map (·.2)).map count).sum = ∑ i, ((courseOf i mixed).map count).sum := by
  induction mixed with
  | nil => simp [courseOf]
  | cons e mixed ih =>
    have hcons (i : ι) : ((courseOf i (e :: mixed)).map count).sum =
        (if e.1 = i then count e.2 else 0) + ((courseOf i mixed).map count).sum := by
      rw [courseOf, List.filter_cons]
      split_ifs <;> simp_all [courseOf]
    simp only [hcons, Finset.sum_add_distrib, Finset.sum_ite_eq, Finset.mem_univ, if_true,
      List.map_cons, List.sum_cons, ih]

theorem Takes.of_all {limit : Nat} {jobs : List (Script β)} {results : List β}
    (h : (all limit jobs).Takes course results) :
    ∃ mixed : List (Fin jobs.length × Exchange), course = mixed.map (·.2) ∧
      ∃ result : Fin jobs.length → β, results = List.ofFn result ∧
        ∀ i, (jobs.get i).Takes (courseOf i mixed) (result i) := by
  cases h with
  | together hjobs hlimit h =>
    obtain ⟨rfl, rfl⟩ := h.of_done
    exact ⟨_, List.append_nil _, _, rfl, hjobs⟩

theorem Asks.all {limit : Nat} {jobs : List (Script β)} (h : ∀ job ∈ jobs, Asks sort job) :
    Asks sort (all limit jobs) := by
  intro course results htakes x hx
  obtain ⟨mixed, rfl, result, _, hjobs⟩ := Takes.of_all htakes
  obtain ⟨⟨i, x⟩, hmem, rfl⟩ := List.mem_map.mp hx
  exact h _ (List.get_mem jobs i) _ _ (hjobs i) x (mem_courseOf.mpr hmem)

theorem Takes.all {limit : Nat} {jobs : List (Script β)}
    {mixed : List (Fin jobs.length × Exchange)} {result : Fin jobs.length → β}
    (hjobs : ∀ i, (jobs.get i).Takes (courseOf i mixed) (result i))
    (hlimit : KeepsLimit (max limit 1) mixed) :
    (all limit jobs).Takes (mixed.map (·.2)) (List.ofFn result) := by
  have h : (Script.all limit jobs).Takes (mixed.map (·.2) ++ []) (List.ofFn result) :=
    .together hjobs hlimit (.done _)
  rwa [List.append_nil] at h

end Script

end RunScheduler
