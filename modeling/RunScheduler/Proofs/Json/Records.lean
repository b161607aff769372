import RunScheduler.Proofs.Json.Reading

/-!
# Records read back

How a value is written as JSON and how it is read agree if what was written is read as the value
(`RoundTrip`). Scalars have such a pair, and so have lists of what has one. A record has one if
each of its fields does: a field is found by its name among the members that were written
(`bind_record?_object`), and one that was left out or written as null is read as none
(`RoundTrip.bind_optional`, `RoundTrip.bind_optional_ofOption`).
-/

namespace RunScheduler.Json

variable {α : Type} {encode : α → Json} {decode : Json → Option α} {levels : Nat} {name : String}

/-- What is written for a value is read as that value. It is not null, and has no more than so
many levels of arrays and objects. -/
structure RoundTrip (levels : Nat) (encode : α → Json) (decode : Json → Option α) : Prop where
  decode_encode : ∀ a, decode (encode a) = some a
  ne_null : ∀ a, encode a ≠ .null
  fits : ∀ a depth, levels ≤ depth → (encode a).Fits depth

theorem natUpTo?_ofNat {max n : Nat} (h : n ≤ max) : (ofNat n).natUpTo? max = some n := by
  show (if (0 : Int) ≤ n ∧ (n : Int) ≤ max then some (n : Int).toNat else none) = some n
  rw [if_pos (by omega), Int.toNat_natCast]

theorem nullable?_of_ne_null {j : Json} (h : j ≠ .null) : j.nullable? decode = (decode j).map some := by
  unfold nullable?
  split
  · exact absurd rfl h
  · rfl

namespace RoundTrip

theorem string : RoundTrip 0 .string string? where
  decode_encode _ := rfl
  ne_null _ := nofun
  fits s _ _ := .string s

theorem bool : RoundTrip 0 .bool bool? where
  decode_encode _ := rfl
  ne_null _ := nofun
  fits b _ _ := .bool b

theorem ofString {toString : α → String} {ofString? : String → Option α}
    (h : ∀ a, ofString? (toString a) = some a) :
    RoundTrip 0 (fun a => .string (toString a)) (fun j => j.string?.bind ofString?) where
  decode_encode := h
  ne_null _ := nofun
  fits a _ _ := .string (toString a)

theorem uint32 : RoundTrip 0 (fun n : UInt32 => ofNat n.toNat) uint32? where
  decode_encode n := by
    unfold uint32?
    rw [natUpTo?_ofNat (Nat.le_of_lt_succ n.toNat_lt), Option.map_some, UInt32.ofNat_toNat]
  ne_null _ := nofun
  fits n _ _ := .integer (Nat.lt_trans n.toNat_lt (by decide))

theorem uint64 : RoundTrip 0 (fun n : UInt64 => ofNat n.toNat) uint64? where
  decode_encode n := by
    unfold uint64?
    rw [natUpTo?_ofNat (Nat.le_of_lt_succ n.toNat_lt), Option.map_some, UInt64.ofNat_toNat]
  ne_null _ := nofun
  fits n _ _ := .integer n.toNat_lt

theorem list (h : RoundTrip levels encode decode) :
    RoundTrip (levels + 1) (fun l => .array (l.map encode)) (listOf? decode) where
  decode_encode l := by
    show (l.map encode).mapM decode = some l
    induction l with
    | nil => rfl
    | cons a l ih =>
      rw [List.map_cons, List.mapM_cons, h.decode_encode, ih]
      rfl
  ne_null _ := nofun
  fits l depth hle := by
    obtain ⟨depth, rfl⟩ := Nat.exists_eq_add_one.mpr (Nat.lt_of_lt_of_le (Nat.succ_pos _) hle)
    refine .array fun j hj => ?_
    obtain ⟨a, -, rfl⟩ := List.mem_map.mp hj
    exact h.fits a depth (Nat.le_of_succ_le_succ hle)

theorem nullable? (h : RoundTrip levels encode decode) (a : α) :
    (encode a).nullable? decode = some (some a) := by
  rw [nullable?_of_ne_null (h.ne_null a), h.decode_encode, Option.map_some]

theorem nullable?_ofOption (h : RoundTrip levels encode decode) (o : Option α) :
    (ofOption encode o).nullable? decode = some o := by
  cases o with
  | none => rfl
  | some a => exact h.nullable? a

theorem fits_ofOption (h : RoundTrip levels encode decode) (o : Option α) {depth : Nat}
    (hle : levels ≤ depth) : (ofOption encode o).Fits depth := by
  cases o with
  | none => exact .null
  | some a => exact h.fits a depth hle

theorem fits_memberIfSome (h : RoundTrip levels encode decode) (o : Option α) {depth : Nat}
    (hle : levels ≤ depth) : ∀ m ∈ memberIfSome name encode o, m.2.Fits depth := by
  cases o with
  | none => exact fun m hm => nomatch hm
  | some a =>
    intro m hm
    obtain rfl := List.mem_singleton.mp hm
    exact h.fits a depth hle

end RoundTrip

/-! ### Fields

A record is read field by field, so that each lemma takes the reading of one field off the front:
if the field has what was written for a value, the rest goes on with that value. -/

variable {β : Type} {names : List String} {members : List (String × Json)} {b : β}

/-- Members that are fields, each named once, are all the fields that are found. -/
theorem bind_record?_object {f : Record → Option β} (hnames : names.Nodup)
    (h : (members.map (·.1)).Sublist names) (hrest : f ⟨members⟩ = some b) :
    (record? names (.object members) >>= f) = some b := by
  have hknown : members.filter (fun m => names.contains m.1) = members := by
    refine List.filter_eq_self.mpr fun m hm => ?_
    exact List.contains_iff_mem.mpr (h.subset (List.mem_map_of_mem hm))
  have hfields : record? names (.object members) = some ⟨members⟩ := by
    show namedFields names members = some ⟨members⟩
    unfold namedFields
    dsimp only
    rw [hknown, if_pos (hnames.sublist h)]
  rw [hfields]
  exact hrest

theorem map_memberIfSome_sublist (name : String) (encode : α → Json) (o : Option α) :
    ((memberIfSome name encode o).map (·.1)).Sublist [name] := by
  cases o with
  | none => exact List.nil_sublist _
  | some a => exact List.Sublist.refl _

@[simp] theorem lookup_memberIfSome (field name : String) (encode : α → Json) (o : Option α) :
    (memberIfSome name encode o).lookup field = if field == name then o.map encode else none := by
  cases o with
  | none => simp [memberIfSome]
  | some a =>
    rw [memberIfSome, List.lookup_cons]
    cases field == name <;> rfl

namespace RoundTrip

variable {r : Record} {a : α} {o : Option α}

theorem bind_required {f : α → Option β} (h : RoundTrip levels encode decode)
    (hfield : r.fields.lookup name = some (encode a)) (hrest : f a = some b) :
    (r.required name decode >>= f) = some b := by
  have hread : r.required name decode = some a := by
    rw [Record.required, hfield]
    exact h.decode_encode a
  rw [hread]
  exact hrest

theorem bind_withDefault {f : α → Option β} {default : α} (h : RoundTrip levels encode decode)
    (hfield : r.fields.lookup name = some (encode a)) (hrest : f a = some b) :
    (r.withDefault name decode default >>= f) = some b := by
  have hread : r.withDefault name decode default = some a := by
    rw [Record.withDefault, hfield]
    exact h.decode_encode a
  rw [hread]
  exact hrest

theorem bind_optional {f : Option α → Option β} (h : RoundTrip levels encode decode)
    (hfield : r.fields.lookup name = o.map encode) (hrest : f o = some b) :
    (r.optional name decode >>= f) = some b := by
  have hread : r.optional name decode = some o := by
    rw [Record.optional, hfield]
    cases o with
    | none => rfl
    | some a => exact h.nullable? a
  rw [hread]
  exact hrest

theorem bind_optional_ofOption {f : Option α → Option β} (h : RoundTrip levels encode decode)
    (hfield : r.fields.lookup name = some (ofOption encode o)) (hrest : f o = some b) :
    (r.optional name decode >>= f) = some b := by
  have hread : r.optional name decode = some o := by
    rw [Record.optional, hfield]
    exact h.nullable?_ofOption o
  rw [hread]
  exact hrest

end RoundTrip

end RunScheduler.Json
