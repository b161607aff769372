import RunScheduler.Proofs.Script

/-!
# Scripts that come to an end

`Script.Halts` says that a script comes to an end whatever it is told, as long as each reply is an
allowed one. A loop halts if each of its rounds does and the rounds lead to its end, so the proof
that one halts is an induction on what is left for it to do (`Halts.repeatFrom`). Scripts made of
others halt if these do (`Halts.bind`, `Halts.retry`, `Halts.all`). A script that halts has a result
(`Halts.exists_takes`).
-/

namespace RunScheduler.Script

/-- The script comes to an end after finitely many exchanges, if the replies are allowed ones. -/
inductive Halts (allowed : Exchange → Prop) : {α : Type} → Script α → Prop
  | done {α : Type} (a : α) : Halts allowed (.done a)
  | ask {α : Type} {request : Request} {go : request.Reply → Script α}
      (h : ∀ reply, allowed ⟨request, reply⟩ → Halts allowed (go reply)) :
      Halts allowed (.ask request go)
  | loop {σ β α : Type} {s : σ} {body : σ → Script (σ ⊕ β)} {go : β → Script α}
      (hbody : Halts allowed (body s))
      (hagain : ∀ course s', (body s).Takes course (.inl s') → (∀ x ∈ course, allowed x) →
        Halts allowed (.loop s' body go))
      (henough : ∀ course b, (body s).Takes course (.inr b) → (∀ x ∈ course, allowed x) →
        Halts allowed (go b)) : Halts allowed (.loop s body go)
  | together {β α : Type} {limit n : Nat} {jobs : Fin n → Script β} {go : (Fin n → β) → Script α}
      (hjobs : ∀ i, Halts allowed (jobs i))
      (h : ∀ (mixed : List (Fin n × Exchange)) results,
        (∀ i, (jobs i).Takes (courseOf i mixed) (results i)) → KeepsLimit (max limit 1) mixed →
        (∀ x ∈ mixed.map (·.2), allowed x) → Halts allowed (go results)) :
      Halts allowed (.together limit n jobs go)

variable {α β : Type} {allowed : Exchange → Prop}

theorem Halts.call {request : Request} : Halts allowed (call request) :=
  .ask fun _ _ => .done _

theorem Halts.bind {script : Script α} {f : α → Script β} (h : Halts allowed script)
    (hf : ∀ course a, script.Takes course a → (∀ x ∈ course, allowed x) → Halts allowed (f a)) :
    Halts allowed (script.bind f) := by
  induction h with
  | done a => exact hf [] a (.done a) (by simp)
  | ask _ ih =>
    refine .ask fun reply hreply => ih reply hreply fun course a htakes hcourse => ?_
    exact hf _ a (.ask htakes) (List.forall_mem_cons.mpr ⟨hreply, hcourse⟩)
  | @loop σ γ _ s body go hbody _ _ _ ihagain ihenough =>
    refine .loop hbody (fun first s' hfirst hallowed => ?_) fun first b hfirst hallowed => ?_
    · refine ihagain first s' hfirst hallowed fun rest a hrest hcourse => ?_
      exact hf _ a (.again hfirst hrest) (List.forall_mem_append.mpr ⟨hallowed, hcourse⟩)
    · refine ihenough first b hfirst hallowed fun rest a hrest hcourse => ?_
      exact hf _ a (.enough hfirst hrest) (List.forall_mem_append.mpr ⟨hallowed, hcourse⟩)
  | together hjobs _ _ ih =>
    refine .together hjobs fun mixed results hmixed hlimit hallowed => ?_
    refine ih mixed results hmixed hlimit hallowed fun rest a hrest hcourse => ?_
    exact hf _ a (.together hmixed hlimit hrest) (List.forall_mem_append.mpr ⟨hallowed, hcourse⟩)

theorem Halts.retry {policy : RetryPolicy} {script : Script (Except StoreError α)}
    (h : Halts allowed script) : Halts allowed (retry policy script) := by
  have hfrom : ∀ more attempt, Halts allowed (policy.retryFrom wait script more attempt) := by
    intro more
    induction more with
    | zero => exact fun _ => h
    | succ more ih =>
      intro attempt
      refine Halts.bind h fun _ outcome _ _ => ?_
      cases outcome with
      | ok a => exact .done _
      | error e =>
        dsimp only
        split_ifs
        · exact Halts.bind .call fun _ _ _ _ => ih _
        · exact .done _
  exact hfrom _ _

theorem Halts.all {limit : Nat} {jobs : List (Script β)} (h : ∀ job ∈ jobs, Halts allowed job) :
    Halts allowed (all limit jobs) :=
  .together (fun i => h _ (List.get_mem jobs i)) fun _ _ _ _ _ => .done _

/-- A loop halts if what is left for it to do becomes less with each round. -/
theorem Halts.repeatFrom {σ : Type} {body : σ → Script (σ ⊕ β)} (left : σ → Nat)
    (hbody : ∀ s, Halts allowed (body s))
    (hless : ∀ s course s', (body s).Takes course (.inl s') → (∀ x ∈ course, allowed x) →
      left s' < left s) (s : σ) : Halts allowed (repeatFrom s body) := by
  induction hleft : left s using Nat.strong_induction_on generalizing s with
  | _ n ih =>
    refine .loop (hbody s) (fun course s' htakes hallowed => ?_) fun _ _ _ _ => .done _
    exact ih (left s') (hleft ▸ hless s course s' htakes hallowed) s' rfl

/-! ### Results -/

section InTurn

variable {n : Nat} (courses : Fin n → List Exchange)

/-- What jobs exchange one after another. -/
def inTurn : List (Fin n × Exchange) :=
  (List.finRange n).flatMap fun i => (courses i).map (Prod.mk i)

theorem courseOf_inTurn (i : Fin n) : courseOf i (inTurn courses) = courses i := by
  have hother {jobs : List (Fin n)} (h : i ∉ jobs) :
      courseOf i (jobs.flatMap fun j => (courses j).map (Prod.mk j)) = [] := by
    refine List.eq_nil_iff_forall_not_mem.mpr fun x hx => ?_
    simp only [mem_courseOf, List.mem_flatMap, List.mem_map, Prod.mk.injEq] at hx
    obtain ⟨_, hmem, _, _, rfl, _⟩ := hx
    exact h hmem
  have hown : courseOf i ((courses i).map (Prod.mk i)) = courses i := by
    simp [courseOf, List.filter_map, Function.comp_def]
  obtain ⟨earlier, later, hjobs⟩ := List.append_of_mem (List.mem_finRange i)
  have hnodup := List.nodup_finRange n
  rw [hjobs, List.nodup_append, List.nodup_cons] at hnodup
  obtain ⟨_, ⟨hlater, _⟩, hearlier⟩ := hnodup
  have happend (l l' : List (Fin n × Exchange)) :
      courseOf i (l ++ l') = courseOf i l ++ courseOf i l' := by simp [courseOf]
  rw [inTurn, hjobs, List.flatMap_append, List.flatMap_cons, happend, happend, hown,
    hother hlater, hother fun h => hearlier i h i List.mem_cons_self rfl, List.nil_append,
    List.append_nil]

theorem keepsLimit_inTurn {limit : Nat} (hlimit : 0 < limit) :
    KeepsLimit limit (inTurn courses) := by
  have hordered : (inTurn courses).Pairwise fun e e' => e.1 ≤ e'.1 := by
    refine List.pairwise_flatMap.mpr ⟨fun i _ => ?_, ?_⟩
    · exact List.pairwise_map.mpr (List.pairwise_of_forall fun _ _ => le_rfl)
    · refine (List.pairwise_lt_finRange n).imp fun {i j} hlt e he e' he' => ?_
      obtain ⟨_, _, rfl⟩ := List.mem_map.mp he
      obtain ⟨_, _, rfl⟩ := List.mem_map.mp he'
      exact hlt.le
  intro before e after hmixed
  rw [hmixed, List.pairwise_append, List.pairwise_cons] at hordered
  obtain ⟨_, ⟨hafter, _⟩, hbefore⟩ := hordered
  refine (Finset.card_le_one.mpr ?_).trans hlimit
  suffices h : ∀ i, i ∈ (before ++ [e]).map (·.1) ∧ i ∈ (e :: after).map (·.1) → i = e.1 by
    intro i hi j hj
    rw [h i (Finset.mem_filter.mp hi).2, h j (Finset.mem_filter.mp hj).2]
  rintro i ⟨hfirst, hlast⟩
  obtain ⟨e', he', rfl⟩ := List.mem_map.mp hfirst
  obtain ⟨e'', he'', heq⟩ := List.mem_map.mp hlast
  refine le_antisymm ?_ ?_
  · rcases List.mem_append.mp he' with he' | he'
    · exact hbefore e' he' e List.mem_cons_self
    · rw [List.mem_singleton.mp he']
  · rw [← heq]
    rcases List.mem_cons.mp he'' with rfl | he''
    · exact le_rfl
    · exact hafter e'' he''

end InTurn

theorem Halts.exists_takes {script : Script α} (h : Halts allowed script)
    (hreply : ∀ request, ∃ reply, allowed ⟨request, reply⟩) :
    ∃ course a, script.Takes course a ∧ ∀ x ∈ course, allowed x := by
  induction h with
  | done a => exact ⟨[], a, .done a, by simp⟩
  | @ask _ request _ _ ih =>
    obtain ⟨reply, hallowed⟩ := hreply request
    obtain ⟨course, a, htakes, hcourse⟩ := ih reply hallowed
    exact ⟨_, a, .ask htakes, List.forall_mem_cons.mpr ⟨hallowed, hcourse⟩⟩
  | loop _ _ _ ih ihagain ihenough =>
    obtain ⟨first, outcome, hfirst, hallowed⟩ := ih
    cases outcome with
    | inl s' =>
      obtain ⟨rest, a, hrest, hcourse⟩ := ihagain first s' hfirst hallowed
      exact ⟨_, a, .again hfirst hrest, List.forall_mem_append.mpr ⟨hallowed, hcourse⟩⟩
    | inr b =>
      obtain ⟨rest, a, hrest, hcourse⟩ := ihenough first b hfirst hallowed
      exact ⟨_, a, .enough hfirst hrest, List.forall_mem_append.mpr ⟨hallowed, hcourse⟩⟩
  | @together _ _ limit n jobs _ _ _ ihjobs ih =>
    choose courses results hjobs hallowed using ihjobs
    have hmixed : ∀ i, (jobs i).Takes (courseOf i (inTurn courses)) (results i) := fun i =>
      (courseOf_inTurn courses i).symm ▸ hjobs i
    have hlimit : KeepsLimit (max limit 1) (inTurn courses) :=
      keepsLimit_inTurn courses (Nat.lt_of_lt_of_le one_pos (le_max_right _ _))
    have hall : ∀ x ∈ (inTurn courses).map (·.2), allowed x := by
      intro x hx
      obtain ⟨⟨i, y⟩, hmem, rfl⟩ := List.mem_map.mp hx
      rw [← mem_courseOf, courseOf_inTurn] at hmem
      exact hallowed i y hmem
    obtain ⟨rest, a, hrest, hcourse⟩ := ih _ results hmixed hlimit hall
    exact ⟨_, a, .together hmixed hlimit hrest, List.forall_mem_append.mpr ⟨hall, hcourse⟩⟩

end RunScheduler.Script
