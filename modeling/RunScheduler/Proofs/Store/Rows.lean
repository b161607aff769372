import RunScheduler.Deployment
import RunScheduler.Proofs.Instant.Reading
import RunScheduler.Proofs.Json.Records
import RunScheduler.Proofs.RunId

/-!
# Rows of the store read back

A row of the store is the JSON text of a run or a deployment, and every operation reads the rows
that it decides by. So nothing may be lost on the way: what is read from a row is the value that
was written (`rows_read_back`).

A run is written with all its fields, null where it has no value, and a state, a definition and the
bounds of a deployment leave such fields out. Either way the reader takes them for missing
(`Run.roundTrip`, `State.roundTrip`). A schedule is written as its definition, which is checked
again when it is read and compiles to the same timing (`Schedule.roundTrip`).
-/

namespace RunScheduler

open Json (RoundTrip)

theorem Instant.roundTrip : RoundTrip 0 Instant.toJson Instant.ofJson? :=
  RoundTrip.ofString Instant.ofString?_toString

theorem RunId.roundTrip : RoundTrip 0 RunId.toJson RunId.ofJson? :=
  RoundTrip.ofString RunId.ofString?_toString

theorem StateKind.roundTrip : RoundTrip 0 StateKind.toJson StateKind.ofJson? where
  decode_encode := StateKind.ofName?_name
  ne_null _ := nofun
  fits k _ _ := .string k.name

theorem State.roundTrip : RoundTrip 1 State.toJson State.ofJson? where
  decode_encode s := by
    refine Json.bind_record?_object (by decide) ?_ ?_
    · simp only [List.map_append]
      exact ((List.Sublist.refl ["kind", "timestamp"]).append
        (Json.map_memberIfSome_sublist _ _ _)).append (Json.map_memberIfSome_sublist _ _ _)
    · refine StateKind.roundTrip.bind_required rfl ?_
      refine Instant.roundTrip.bind_required rfl ?_
      refine RoundTrip.string.bind_optional (o := s.message) ?_ ?_
      · simp [List.lookup_append, List.lookup_cons]
      refine Instant.roundTrip.bind_optional (o := s.pauseDeadline) ?_ rfl
      simp [List.lookup_append, List.lookup_cons]
  ne_null _ := nofun
  fits s depth hle := by
    obtain ⟨depth, rfl⟩ := Nat.exists_eq_add_one.mpr hle
    refine .object ?_
    simp only [List.forall_mem_append, List.forall_mem_cons]
    have hzero := Nat.zero_le depth
    exact ⟨⟨⟨StateKind.roundTrip.fits _ _ hzero, Instant.roundTrip.fits _ _ hzero, nofun⟩,
      RoundTrip.string.fits_memberIfSome _ hzero⟩, Instant.roundTrip.fits_memberIfSome _ hzero⟩

theorem Run.roundTrip : RoundTrip 3 Run.toJson Run.ofJson? where
  decode_encode r := by
    refine Json.bind_record?_object (by decide) (List.Sublist.refl Run.fieldNames) ?_
    refine RunId.roundTrip.bind_required rfl ?_
    refine RoundTrip.string.bind_optional_ofOption rfl ?_
    refine RoundTrip.string.bind_required rfl ?_
    refine Instant.roundTrip.bind_required rfl ?_
    refine State.roundTrip.bind_required rfl ?_
    refine State.roundTrip.list.bind_withDefault rfl ?_
    refine RoundTrip.string.bind_optional_ofOption rfl ?_
    refine RoundTrip.string.list.bind_withDefault rfl ?_
    refine RunId.roundTrip.bind_optional_ofOption rfl ?_
    refine RoundTrip.string.bind_optional_ofOption rfl ?_
    refine RoundTrip.string.bind_optional_ofOption rfl ?_
    refine Instant.roundTrip.bind_required rfl ?_
    exact Instant.roundTrip.bind_required rfl rfl
  ne_null _ := nofun
  fits r depth hle := by
    obtain ⟨depth, rfl⟩ := Nat.exists_eq_add_one.mpr (Nat.zero_lt_of_lt hle)
    refine .object ?_
    simp only [List.forall_mem_cons]
    have hzero := Nat.zero_le depth
    have htwo : 2 ≤ depth := Nat.le_of_succ_le_succ hle
    exact ⟨RunId.roundTrip.fits _ _ hzero, RoundTrip.string.fits_ofOption _ hzero,
      RoundTrip.string.fits _ _ hzero, Instant.roundTrip.fits _ _ hzero,
      State.roundTrip.fits _ _ (Nat.le_of_succ_le htwo), State.roundTrip.list.fits _ _ htwo,
      RoundTrip.string.fits_ofOption _ hzero,
      RoundTrip.string.list.fits _ _ (Nat.le_of_succ_le htwo),
      RunId.roundTrip.fits_ofOption _ hzero, RoundTrip.string.fits_ofOption _ hzero,
      RoundTrip.string.fits_ofOption _ hzero, Instant.roundTrip.fits _ _ hzero,
      Instant.roundTrip.fits _ _ hzero, nofun⟩

theorem Recurrence.ofJson?_object (name : String) {members : List (String × Json)}
    (h : "type" ∉ members.map (·.1)) :
    ofJson? (.object (("type", .string name) :: members)) =
      ofFields? name fun names => Json.record? names (.object members) := by
  have hother : ∀ m ∈ members, m.1 ≠ "type" := fun m hm heq => h (heq ▸ List.mem_map_of_mem hm)
  have htype : (("type", Json.string name) :: members).filter (·.1 == "type") =
      [("type", .string name)] := by
    rw [List.filter_cons, List.filter_eq_nil_iff.mpr fun m hm => mt eq_of_beq (hother m hm)]
    rfl
  have hfields : (("type", Json.string name) :: members).filter (·.1 != "type") = members := by
    rw [List.filter_cons, List.filter_eq_self.mpr fun m hm => bne_iff_ne.mpr (hother m hm)]
    rfl
  unfold ofJson?
  dsimp only
  rw [htype, hfields]

theorem Recurrence.roundTrip : RoundTrip 1 Recurrence.toJson Recurrence.ofJson? where
  decode_encode
    | .interval everySeconds anchor => by
      have hnames : (([("every_seconds", Json.ofNat everySeconds.toNat)] ++
          Json.memberIfSome "anchor" Instant.toJson anchor).map (·.1)).Sublist
          ["every_seconds", "anchor"] := by
        rw [List.map_append]
        exact (List.Sublist.refl ["every_seconds"]).append (Json.map_memberIfSome_sublist _ _ _)
      refine (ofJson?_object "interval" fun h => absurd (hnames.subset h) (by decide)).trans ?_
      refine Json.bind_record?_object (by decide) hnames ?_
      refine RoundTrip.uint64.bind_required rfl ?_
      refine Instant.roundTrip.bind_optional (o := anchor) ?_ rfl
      simp [List.lookup_cons]
    | .cron expression => rfl
    | .rrule rule => rfl
  ne_null r := by cases r <;> nofun
  fits r depth hle := by
    obtain ⟨depth, rfl⟩ := Nat.exists_eq_add_one.mpr hle
    have hzero := Nat.zero_le depth
    cases r with
    | interval everySeconds anchor =>
      refine .object ?_
      simp only [List.forall_mem_append, List.forall_mem_cons]
      exact ⟨⟨.string _, RoundTrip.uint64.fits _ _ hzero, nofun⟩,
        Instant.roundTrip.fits_memberIfSome _ hzero⟩
    | cron expression =>
      refine .object ?_
      simp only [List.forall_mem_cons]
      exact ⟨.string _, .string _, nofun⟩
    | rrule rule =>
      refine .object ?_
      simp only [List.forall_mem_cons]
      exact ⟨.string _, .string _, nofun⟩

theorem Schedule.Definition.roundTrip :
    RoundTrip 2 Schedule.Definition.toJson Schedule.Definition.ofJson? where
  decode_encode d := by
    refine Json.bind_record?_object (by decide) ?_ ?_
    · simp only [List.map_append]
      exact ((List.Sublist.refl ["recurrence"]).append
        (Json.map_memberIfSome_sublist _ _ _)).append (Json.map_memberIfSome_sublist _ _ _)
    · refine Recurrence.roundTrip.bind_required rfl ?_
      refine Instant.roundTrip.bind_optional (o := d.start) ?_ ?_
      · simp [List.lookup_append, List.lookup_cons]
      refine Instant.roundTrip.bind_optional (o := d.stop) ?_ rfl
      simp [List.lookup_append, List.lookup_cons]
  ne_null _ := nofun
  fits d depth hle := by
    obtain ⟨depth, rfl⟩ := Nat.exists_eq_add_one.mpr (Nat.zero_lt_of_lt hle)
    refine .object ?_
    simp only [List.forall_mem_append, List.forall_mem_cons]
    have hzero := Nat.zero_le depth
    exact ⟨⟨⟨Recurrence.roundTrip.fits _ _ (Nat.le_of_succ_le_succ hle), nofun⟩,
      Instant.roundTrip.fits_memberIfSome _ hzero⟩, Instant.roundTrip.fits_memberIfSome _ hzero⟩

theorem Schedule.roundTrip : RoundTrip 2 Schedule.toJson Schedule.ofJson? where
  decode_encode s := by
    unfold Schedule.ofJson? Schedule.toJson
    rw [Definition.roundTrip.decode_encode, Option.bind_some, ofDefinition_definition]
    rfl
  ne_null _ := nofun
  fits s := Definition.roundTrip.fits s.definition

/-- The member of a bound, if the deployment has that bound. -/
abbrev BoundsOverride.member (name : String) (bound : Option UInt64) : List (String × Json) :=
  Json.memberIfSome name (fun n : UInt64 => Json.ofNat n.toNat) bound

theorem BoundsOverride.toJson_eq (o : BoundsOverride) :
    o.toJson = .object (member "min_runs" o.minRuns ++ member "max_runs" o.maxRuns ++
      member "min_scheduled_time_seconds" o.minAheadSeconds ++
      member "max_scheduled_time_seconds" o.maxAheadSeconds) := rfl

theorem BoundsOverride.roundTrip : RoundTrip 1 BoundsOverride.toJson BoundsOverride.ofJson? where
  decode_encode o := by
    rw [toJson_eq]
    refine Json.bind_record?_object (by decide) ?_ ?_
    · simp only [List.map_append]
      exact (((Json.map_memberIfSome_sublist _ _ _).append
        (Json.map_memberIfSome_sublist _ _ _)).append (Json.map_memberIfSome_sublist _ _ _)).append
        (Json.map_memberIfSome_sublist _ _ _)
    · refine RoundTrip.uint64.bind_optional (o := o.minRuns) ?_ ?_
      · simp [List.lookup_append]
      refine RoundTrip.uint64.bind_optional (o := o.maxRuns) ?_ ?_
      · simp [List.lookup_append]
      refine RoundTrip.uint64.bind_optional (o := o.minAheadSeconds) ?_ ?_
      · simp [List.lookup_append]
      refine RoundTrip.uint64.bind_optional (o := o.maxAheadSeconds) ?_ rfl
      simp [List.lookup_append]
  ne_null _ := nofun
  fits o depth hle := by
    obtain ⟨depth, rfl⟩ := Nat.exists_eq_add_one.mpr hle
    rw [toJson_eq]
    refine .object ?_
    simp only [List.forall_mem_append]
    have hzero := Nat.zero_le depth
    exact ⟨⟨⟨RoundTrip.uint64.fits_memberIfSome _ hzero, RoundTrip.uint64.fits_memberIfSome _ hzero⟩,
      RoundTrip.uint64.fits_memberIfSome _ hzero⟩, RoundTrip.uint64.fits_memberIfSome _ hzero⟩

theorem Deployment.roundTrip : RoundTrip 3 Deployment.toJson Deployment.ofJson? where
  decode_encode d := by
    refine Json.bind_record?_object (by decide) (List.Sublist.refl Deployment.fieldNames) ?_
    refine RoundTrip.string.bind_required rfl ?_
    refine RoundTrip.string.bind_required rfl ?_
    refine Schedule.roundTrip.bind_optional_ofOption rfl ?_
    refine RoundTrip.bool.bind_withDefault rfl ?_
    refine RoundTrip.uint32.bind_optional_ofOption rfl ?_
    refine BoundsOverride.roundTrip.bind_withDefault rfl ?_
    refine RoundTrip.string.list.bind_withDefault rfl ?_
    refine Instant.roundTrip.bind_required rfl ?_
    exact Instant.roundTrip.bind_required rfl rfl
  ne_null _ := nofun
  fits d depth hle := by
    obtain ⟨depth, rfl⟩ := Nat.exists_eq_add_one.mpr (Nat.zero_lt_of_lt hle)
    refine .object ?_
    simp only [List.forall_mem_cons]
    have hzero := Nat.zero_le depth
    have htwo : 2 ≤ depth := Nat.le_of_succ_le_succ hle
    have hone : 1 ≤ depth := Nat.le_of_succ_le htwo
    exact ⟨RoundTrip.string.fits _ _ hzero, RoundTrip.string.fits _ _ hzero,
      Schedule.roundTrip.fits_ofOption _ htwo, RoundTrip.bool.fits _ _ hzero,
      RoundTrip.uint32.fits_ofOption _ hzero, BoundsOverride.roundTrip.fits _ _ hone,
      RoundTrip.string.list.fits _ _ hone, Instant.roundTrip.fits _ _ hzero,
      Instant.roundTrip.fits _ _ hzero, nofun⟩

theorem Json.RoundTrip.read {α : Type} {encode : α → Json} {decode : Json → Option α}
    {levels : Nat} (h : RoundTrip levels encode decode) (hle : levels ≤ Json.maxDepth) (a : α) :
    (Json.ofString? (encode a).toText).bind decode = some a := by
  rw [Json.ofString?_toText (h.fits a _ hle), Option.bind_some, h.decode_encode]

/-- **What is stored reads back as it was.** The JSON text of a run, a deployment, a schedule or a
definition holds that value, whatever its strings, instants and numbers are, however long its
history is, and whichever of its fields are there. -/
theorem rows_read_back :
    (∀ r : Run, (Json.ofString? r.toJson.toText).bind Run.ofJson? = some r) ∧
      (∀ d : Deployment, (Json.ofString? d.toJson.toText).bind Deployment.ofJson? = some d) ∧
      (∀ s : Schedule, (Json.ofString? s.toJson.toText).bind Schedule.ofJson? = some s) ∧
      ∀ d : Schedule.Definition,
        (Json.ofString? d.toJson.toText).bind Schedule.Definition.ofJson? = some d :=
  ⟨Run.roundTrip.read (by decide), Deployment.roundTrip.read (by decide),
    Schedule.roundTrip.read (by decide), Schedule.Definition.roundTrip.read (by decide)⟩

end RunScheduler
