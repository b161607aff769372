import RunScheduler.Proofs.Script

/-!
# Protocols that scripts keep to

What a script asks for depends on what it was told before. A `Protocol` says what may be asked for
after some exchanges, and `Script.KeepsTo` that a script keeps to one and, where it ends, what is
true by then of everything exchanged and of the result.

A script made of others keeps to a protocol if these do (`KeepsTo.bind`, `KeepsTo.retry`,
`KeepsTo.repeatFrom`): each goes on from what is true where the one before ends. For a loop this
is something that every round preserves. A script that has not ended yet keeps to it as well
(`KeepsTo.of_begins`).
-/

namespace RunScheduler

/-- Says what may be asked for after some exchanges. -/
abbrev Protocol := List Exchange → Request → Prop

/-- Each request of a course may be made after the exchanges of the past and those before it. -/
def Protocol.Admits (protocol : Protocol) : (past course : List Exchange) → Prop
  | _, [] => True
  | past, x :: course => protocol past x.request ∧ protocol.Admits (past ++ [x]) course

theorem Protocol.admits_append {protocol : Protocol} {past course course' : List Exchange} :
    protocol.Admits past (course ++ course') ↔
      protocol.Admits past course ∧ protocol.Admits (past ++ course) course' := by
  induction course generalizing past with
  | nil => simp [Admits]
  | cons x course ih =>
    simp only [List.cons_append, Admits, ih, and_assoc, List.append_assoc, List.nil_append]

theorem Protocol.Admits.of_append_cons {protocol : Protocol} {past before after : List Exchange}
    {x : Exchange} (h : protocol.Admits past (before ++ x :: after)) :
    protocol (past ++ before) x.request :=
  (admits_append.mp h).2.1

namespace Script

variable {α β : Type} {protocol : Protocol} {past : List Exchange}

/-- The script keeps to a protocol after what was exchanged in the past. If it ends, `ends` holds
of all exchanges up to then and of the result. -/
def KeepsTo (protocol : Protocol) (past : List Exchange) (script : Script α)
    (ends : List Exchange → α → Prop) : Prop :=
  ∀ course a, script.Takes course a → protocol.Admits past course ∧ ends (past ++ course) a

theorem KeepsTo.done {ends : List Exchange → α → Prop} {a : α} (h : ends past a) :
    KeepsTo protocol past (.done a) ends := by
  intro course b htakes
  obtain ⟨rfl, rfl⟩ := htakes.of_done
  rw [List.append_nil]
  exact ⟨trivial, h⟩

theorem KeepsTo.ask {ends : List Exchange → α → Prop} {request : Request}
    {go : request.Reply → Script α} (hmay : protocol past request)
    (h : ∀ reply, KeepsTo protocol (past ++ [⟨request, reply⟩]) (go reply) ends) :
    KeepsTo protocol past (.ask request go) ends := by
  intro course a htakes
  cases htakes with
  | @ask _ _ _ reply course _ htakes =>
    obtain ⟨hadmits, hends⟩ := h reply course a htakes
    rw [List.append_assoc] at hends
    exact ⟨⟨hmay, hadmits⟩, hends⟩

theorem KeepsTo.mono {ends ends' : List Exchange → α → Prop} {script : Script α}
    (h : KeepsTo protocol past script ends) (himp : ∀ past a, ends past a → ends' past a) :
    KeepsTo protocol past script ends' := by
  intro course a htakes
  exact (h course a htakes).imp_right (himp _ _)

theorem KeepsTo.since {ends : List Exchange → α → Prop} {script : Script α}
    (h : KeepsTo protocol past script ends) :
    KeepsTo protocol past script fun past' a => ∃ later, past' = past ++ later ∧ ends past' a := by
  intro course a htakes
  obtain ⟨hadmits, hends⟩ := h course a htakes
  exact ⟨hadmits, course, rfl, hends⟩

theorem KeepsTo.bind {mid : List Exchange → α → Prop} {ends : List Exchange → β → Prop}
    {script : Script α} {f : α → Script β} (h : KeepsTo protocol past script mid)
    (hf : ∀ past a, mid past a → KeepsTo protocol past (f a) ends) :
    KeepsTo protocol past (script.bind f) ends := by
  intro course b htakes
  obtain ⟨first, rest, a, rfl, hfirst, hrest⟩ := Takes.of_bind htakes
  obtain ⟨hadmits, hmid⟩ := h first a hfirst
  obtain ⟨hadmits', hends⟩ := hf _ a hmid rest b hrest
  rw [List.append_assoc] at hends
  exact ⟨Protocol.admits_append.mpr ⟨hadmits, hadmits'⟩, hends⟩

theorem KeepsTo.of_asks {sort : Request → Prop} {script : Script α} (h : Asks sort script)
    (hmay : ∀ later request, sort request → protocol (past ++ later) request) :
    KeepsTo protocol past script fun past' a =>
      ∃ course, past' = past ++ course ∧ script.Takes course a := by
  intro course a htakes
  refine ⟨?_, course, rfl, htakes⟩
  have hsort := h course a htakes
  clear htakes
  induction course generalizing past with
  | nil => trivial
  | cons x course ih =>
    refine ⟨?_, ih (fun later request hrequest => ?_) fun y hy => hsort y (.tail x hy)⟩
    · have hfirst := hmay [] x.request (hsort x List.mem_cons_self)
      rwa [List.append_nil] at hfirst
    · rw [List.append_assoc]
      exact hmay _ request hrequest

/-- A loop keeps to a protocol if its rounds do, given something that holds at the start and that
every round but the last preserves. -/
theorem KeepsTo.repeatFrom {σ : Type} {body : σ → Script (σ ⊕ β)} {s : σ}
    (inv : List Exchange → σ → Prop) {ends : List Exchange → β → Prop} (hinv : inv past s)
    (hbody : ∀ past s, inv past s →
      KeepsTo protocol past (body s) fun past => Sum.elim (inv past) (ends past)) :
    KeepsTo protocol past (repeatFrom s body) ends := by
  intro course b htakes
  refine htakes.repeatFrom_induction (motive := fun s course b => ∀ past, inv past s →
    protocol.Admits past course ∧ ends (past ++ course) b) ?_ ?_ past hinv
  · intro s round s' rest b hround ih past hinv
    obtain ⟨hadmits, hnext⟩ := hbody past s hinv round (.inl s') hround
    obtain ⟨hadmits', hends⟩ := ih _ hnext
    rw [List.append_assoc] at hends
    exact ⟨Protocol.admits_append.mpr ⟨hadmits, hadmits'⟩, hends⟩
  · exact fun s round b hround past hinv => hbody past s hinv round _ hround

theorem KeepsTo.of_begins {ends : List Exchange → α → Prop} {script : Script α}
    {course : List Exchange} (h : KeepsTo protocol past script ends)
    (hbegins : script.Begins course) : protocol.Admits past course := by
  obtain ⟨later, a, htakes⟩ := hbegins
  exact (Protocol.admits_append.mp (h _ a htakes).1).1

end Script

end RunScheduler
