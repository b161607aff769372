import Mathlib.Data.List.DropRight
import RunScheduler.Recurrence.Cron.Reader

/-!
# Reading the fields of cron expressions

The items of a field as they are written: stars, numbers and ranges, with steps, separated by
commas (`Items`). What numbers an item includes depends on the least and the greatest number of
its field (`Item.Includes`). The items are read as they were written, up to the end of their field
(`readFieldTerms_text`).

A reader leaves the rest of the text as it is, or without the white space it begins with, and the
next reader passes over that white space anyway. So the lemmas say what is read up to that.
-/

namespace RunScheduler.Cron

open Text

/-! ### How a field is written -/

/-- A number in decimal digits, leading zeros allowed. -/
structure Numeral where
  digits : List Char
  ne_nil : digits ≠ []
  isDigit : ∀ c ∈ digits, Text.isDigit c = true

namespace Numeral

def value (n : Numeral) : Nat :=
  digitsValue n.digits

end Numeral

/-- A star, a number or a range of numbers. -/
inductive Span
  | all
  | number (n : Numeral)
  | range (first last : Numeral)

namespace Span

def text : Span → List Char
  | all => ['*']
  | number n => n.digits
  | range first last => first.digits ++ '-' :: last.digits

/-- The first number, in a field that begins with `least`. -/
def first (least : Nat) : Span → Nat
  | all => least
  | number n => n.value
  | range first _ => first.value

/-- The last number, in a field that ends with `greatest`. -/
def last (greatest : Nat) : Span → Nat
  | all => greatest
  | number n => n.value
  | range _ last => last.value

def isAll : Span → Bool
  | all => true
  | _ => false

def isNumber : Span → Bool
  | number _ => true
  | _ => false

/-- What is read. -/
def specifier : Span → Specifier
  | all => .all
  | number n => .point n.value
  | range first last => .range first.value last.value

end Span

/-- A span of numbers, or every so many of them. -/
structure Item where
  span : Span
  step : Option Numeral

namespace Item

def text (i : Item) : List Char :=
  i.span.text ++
    match i.step with
    | none => []
    | some step => '/' :: step.digits

/-- What is read. -/
def term (i : Item) : Term :=
  match i.step with
  | none => .plain i.span.specifier
  | some step => .stepped i.span.specifier step.value

/-- The distance from one number of the item to the next. -/
def stride (i : Item) : Nat :=
  match i.step with
  | none => 1
  | some step => step.value

/-- The item includes a number, in a field that goes from `least` to `greatest`. -/
def Includes (i : Item) (least greatest n : Nat) : Prop :=
  (i.span.first least ≤ n ∧ n ≤ i.span.last greatest) ∧ (n - i.span.first least) % i.stride = 0

/-- The item is one of a field that goes from `least` to `greatest`: its numbers are the field's,
its range is not empty, and a step follows a star or a range. A step has to be below 2³². -/
structure Fits (i : Item) (least greatest : Nat) : Prop where
  least_le : least ≤ i.span.first least
  first_le_last : i.span.first least ≤ i.span.last greatest
  le_greatest : i.span.last greatest ≤ greatest
  step_pos : 0 < i.stride
  step_le : i.stride ≤ 4294967295
  span_of_step : i.step.isSome = true → i.span.isNumber = false

instance (i : Item) (least greatest n : Nat) : Decidable (i.Includes least greatest n) :=
  inferInstanceAs (Decidable (_ ∧ _))

instance (i : Item) (least greatest : Nat) : Decidable (i.Fits least greatest) :=
  decidable_of_iff
    ((least ≤ i.span.first least ∧ i.span.first least ≤ i.span.last greatest ∧
      i.span.last greatest ≤ greatest) ∧ (0 < i.stride ∧ i.stride ≤ 4294967295) ∧
      (i.step.isSome = true → i.span.isNumber = false))
    ⟨fun h => ⟨h.1.1, h.1.2.1, h.1.2.2, h.2.1.1, h.2.1.2, h.2.2⟩,
      fun h => ⟨⟨h.least_le, h.first_le_last, h.le_greatest⟩, ⟨h.step_pos, h.step_le⟩,
        h.span_of_step⟩⟩

end Item

/-- Items separated by commas. -/
structure Items where
  first : Item
  more : List Item

namespace Items

def list (l : Items) : List Item :=
  l.first :: l.more

/-- Further items, each after a comma. -/
def moreText (more : List Item) : List Char :=
  more.flatMap fun i => ',' :: i.text

theorem moreText_cons_append (i : Item) (more : List Item) (rest : List Char) :
    moreText (i :: more) ++ rest = ',' :: (i.text ++ (moreText more ++ rest)) := by
  rw [moreText, List.flatMap_cons, List.append_assoc, List.cons_append]
  rfl

theorem length_le_length_moreText (more : List Item) : more.length ≤ (moreText more).length := by
  induction more with
  | nil => exact Nat.le_refl 0
  | cons i more ih =>
    have hcons := moreText_cons_append i more []
    rw [List.append_nil, List.append_nil] at hcons
    rw [hcons, List.length_cons, List.length_cons, List.length_append]
    omega

def text (l : Items) : List Char :=
  l.first.text ++ moreText l.more

/-- An item includes the number. -/
def Include (l : Items) (least greatest n : Nat) : Prop :=
  ∃ i ∈ l.list, i.Includes least greatest n

/-- All items are ones of the field. -/
def Fit (l : Items) (least greatest : Nat) : Prop :=
  ∀ i ∈ l.list, i.Fits least greatest

instance (l : Items) (least greatest n : Nat) : Decidable (l.Include least greatest n) :=
  inferInstanceAs (Decidable (∃ i ∈ l.list, i.Includes least greatest n))

instance (l : Items) (least greatest : Nat) : Decidable (l.Fit least greatest) :=
  inferInstanceAs (Decidable (∀ i ∈ l.list, i.Fits least greatest))

end Items

/-! ### What follows an item -/

theorem ne_of_isDigit {c d : Char} (h : Text.isDigit c = true) (hd : Text.isDigit d = false) :
    c ≠ d := by
  rintro rfl
  rw [h] at hd
  cases hd

theorem isGap_of_isDigit {c : Char} (h : Text.isDigit c = true) : isGap c = false := by
  simp only [isGap, Bool.or_eq_false_iff, beq_eq_false_iff_ne]
  refine ⟨⟨⟨?_, ?_⟩, ?_⟩, ?_⟩
  all_goals exact ne_of_isDigit h (by decide)

theorem forall_head?_cons {p : Char → Prop} {c : Char} {s : List Char} :
    (∀ d ∈ (c :: s).head?, p d) ↔ p c := by
  simp only [List.head?_cons, Option.mem_some_iff, forall_eq']

theorem skipGap_cons_of_not_gap {c : Char} (h : isGap c = false) (s : List Char) :
    skipGap (c :: s) = c :: s := by
  unfold skipGap
  rw [List.dropWhile_cons, h]
  rfl

theorem skipGap_skipGap (s : List Char) : skipGap (skipGap s) = skipGap s :=
  List.dropWhile_idempotent isGap s

/-- A text goes on behind an item so that the item is over. -/
structure Ends (rest : List Char) : Prop where
  digit : ∀ c ∈ rest.head?, Text.isDigit c = false
  sign : ∀ c ∈ (skipGap rest).head?, c ≠ '-' ∧ c ≠ '/'

/-- One text is what a reader leaves of another. -/
def Leaves (rest rest' : List Char) : Prop :=
  rest' = rest ∨ rest' = skipGap rest

theorem Leaves.eq_of_cons {c : Char} (hc : isGap c = false) {s rest' : List Char}
    (h : Leaves (c :: s) rest') : rest' = c :: s := by
  rcases h with rfl | rfl
  · rfl
  · exact skipGap_cons_of_not_gap hc s

theorem Leaves.skipGap_eq {rest rest' : List Char} (h : Leaves rest rest') :
    skipGap rest' = skipGap rest := by
  rcases h with rfl | rfl
  · rfl
  · exact skipGap_skipGap rest

theorem Leaves.head_ne {rest rest' : List Char} (h : Leaves rest rest') {d : Char}
    (hd : isGap d = false) (hne : ∀ c ∈ (skipGap rest).head?, c ≠ d) :
    ∀ c ∈ rest'.head?, c ≠ d := by
  rintro c hc rfl
  cases rest' with
  | nil => cases hc
  | cons c' rest' =>
    obtain rfl : c' = c := Option.some.inj hc
    have hskip := h.skipGap_eq
    rw [skipGap_cons_of_not_gap hd] at hskip
    rw [← hskip] at hne
    exact hne c' rfl rfl

/-! ### Numbers -/

theorem Numeral.exists_cons (n : Numeral) :
    ∃ c rest, n.digits = c :: rest ∧ Text.isDigit c = true := by
  obtain ⟨c, rest, heq⟩ := List.exists_cons_of_ne_nil n.ne_nil
  refine ⟨c, rest, heq, n.isDigit c ?_⟩
  rw [heq]
  exact List.mem_cons_self

theorem readOrdinal_numeral (n : Numeral) (hn : n.value ≤ 4294967295) {rest : List Char}
    (hrest : ∀ c ∈ rest.head?, Text.isDigit c = false) :
    readOrdinal (n.digits ++ rest) = some (n.value, skipGap rest) := by
  have hskip : skipGap (n.digits ++ rest) = n.digits ++ rest := by
    obtain ⟨c, digits, heq, hc⟩ := n.exists_cons
    rw [heq]
    exact skipGap_cons_of_not_gap (isGap_of_isDigit hc) _
  have htake : (n.digits ++ rest).takeWhile Text.isDigit = n.digits := by
    have hnone : rest.takeWhile Text.isDigit = [] := by
      cases rest with
      | nil => rfl
      | cons c rest => rw [List.takeWhile_cons, hrest c rfl, if_neg Bool.false_ne_true]
    rw [List.takeWhile_append_of_pos n.isDigit, hnone, List.append_nil]
  have hnot : ¬ (n.digits.isEmpty = true ∨ 4294967295 < digitsValue n.digits) := by
    rintro (hempty | hlarge)
    · exact n.ne_nil (List.isEmpty_iff.mp hempty)
    · exact Nat.not_lt.mpr hn hlarge
  unfold readOrdinal
  simp only [hskip, htake, List.drop_left]
  exact if_neg hnot

/-! ### Items -/

theorem readSpecifier_of_digit (any : Bool) {c : Char} (hc : Text.isDigit c = true)
    {s rest : List Char} {first : Nat} :
    readOrdinal (c :: s) = some (first, rest) →
      readSpecifier any (c :: s) =
        match rest with
        | '-' :: rest' =>
          match readOrdinal rest' with
          | some (last, rest'') => some (.range first last, rest'')
          | none => some (.point first, rest)
        | _ => some (.point first, rest) := by
  intro hfirst
  have hstar : c ≠ '*' := ne_of_isDigit hc (by decide)
  have hmark : c ≠ '?' := ne_of_isDigit hc (by decide)
  rw [readSpecifier.eq_def]
  split
  · rename_i heq
    exact absurd (List.cons.inj heq).1 hstar
  · rename_i heq
    exact absurd (List.cons.inj heq).1 hmark
  · generalize readOrdinal (c :: s) = read at hfirst ⊢
    subst hfirst
    rfl

/-- The numbers of a span are ones that can be read. -/
def Span.Readable : Span → Prop
  | .all => True
  | .number n => n.value ≤ 4294967295
  | .range first last => first.value ≤ 4294967295 ∧ last.value ≤ 4294967295

theorem readSpecifier_text (any : Bool) {span : Span} (hread : span.Readable) {rest : List Char}
    (hdigit : ∀ c ∈ rest.head?, Text.isDigit c = false)
    (hsign : ∀ c ∈ (skipGap rest).head?, c ≠ '-') :
    ∃ rest', readSpecifier any (span.text ++ rest) = some (span.specifier, rest') ∧
      Leaves rest rest' := by
  cases span with
  | all => exact ⟨rest, rfl, Or.inl rfl⟩
  | number n =>
    refine ⟨skipGap rest, ?_, Or.inr rfl⟩
    obtain ⟨c, digits, heq, hc⟩ := n.exists_cons
    have hordinal := readOrdinal_numeral n hread hdigit
    simp only [Span.text, heq, List.cons_append] at hordinal ⊢
    rw [readSpecifier_of_digit any hc hordinal]
    split
    · rename_i hrest
      rw [hrest] at hsign
      exact absurd rfl (hsign '-' rfl)
    · rfl
  | range first last =>
    refine ⟨skipGap rest, ?_, Or.inr rfl⟩
    obtain ⟨c, digits, heq, hc⟩ := first.exists_cons
    have hfirst : readOrdinal (first.digits ++ '-' :: (last.digits ++ rest)) =
        some (first.value, skipGap ('-' :: (last.digits ++ rest))) :=
      readOrdinal_numeral first hread.1 (forall_head?_cons.mpr (by decide))
    have hlast := readOrdinal_numeral last hread.2 hdigit
    simp only [Span.text, List.append_assoc, List.cons_append]
    rw [heq] at hfirst ⊢
    rw [List.cons_append] at hfirst ⊢
    rw [readSpecifier_of_digit any hc hfirst, skipGap_cons_of_not_gap (by decide)]
    simp only [hlast]
    rfl

theorem readTerm_text (any : Bool) {i : Item} (hread : i.span.Readable)
    (hstep : i.stride ≤ 4294967295) {rest : List Char} (hends : Ends rest) :
    ∃ rest', readTerm any (i.text ++ rest) = some (i.term, rest') ∧ Leaves rest rest' := by
  obtain ⟨span, step⟩ := i
  cases step with
  | none =>
    obtain ⟨rest', hspecifier, hleaves⟩ := readSpecifier_text any hread hends.digit
      fun c hc => (hends.sign c hc).1
    refine ⟨rest', ?_, hleaves⟩
    have hslash := hleaves.head_ne (d := '/') (by decide) fun c hc => (hends.sign c hc).2
    unfold readTerm
    simp only [Item.text, List.append_nil, hspecifier]
    split
    · exact absurd rfl (hslash '/' rfl)
    · rfl
  | some step =>
    refine ⟨skipGap rest, ?_, Or.inr rfl⟩
    have hgap : isGap '/' = false := by decide
    have hspan : ∃ rest', readSpecifier any (span.text ++ '/' :: (step.digits ++ rest)) =
        some (span.specifier, rest') ∧ Leaves ('/' :: (step.digits ++ rest)) rest' := by
      refine readSpecifier_text any hread (forall_head?_cons.mpr (by decide)) ?_
      rw [skipGap_cons_of_not_gap hgap]
      exact forall_head?_cons.mpr (by decide)
    obtain ⟨rest', hspecifier, hleaves⟩ := hspan
    obtain rfl := hleaves.eq_of_cons hgap
    unfold readTerm
    simp only [Item.text, List.append_assoc, List.cons_append, hspecifier,
      readOrdinal_numeral step hstep hends.digit]
    rfl

/-! ### Fields -/

/-- A text goes on behind a field so that the field is over. -/
structure EndsField (rest : List Char) : Prop extends Ends rest where
  comma : ∀ c ∈ (skipGap rest).head?, c ≠ ','

theorem EndsField.ends_moreText {rest : List Char} (h : EndsField rest) (more : List Item) :
    Ends (Items.moreText more ++ rest) := by
  cases more with
  | nil => exact h.toEnds
  | cons i more =>
    rw [Items.moreText_cons_append]
    constructor
    · exact forall_head?_cons.mpr (by decide)
    · rw [skipGap_cons_of_not_gap (by decide)]
      exact forall_head?_cons.mpr (by decide)

theorem readTerms_text (any : Bool) {more : List Item}
    (hread : ∀ i ∈ more, i.span.Readable ∧ i.stride ≤ 4294967295) {rest : List Char}
    (hends : EndsField rest) {fuel : Nat} (hfuel : more.length ≤ fuel) {s : List Char}
    (hs : Leaves (Items.moreText more ++ rest) s) :
    ∃ rest', readTerms any fuel s = (more.map Item.term, rest') ∧ Leaves rest rest' := by
  induction more generalizing fuel s with
  | nil =>
    have hcomma := hs.head_ne (d := ',') (by decide) hends.comma
    refine ⟨s, ?_, hs⟩
    cases fuel with
    | zero => rfl
    | succ fuel =>
      unfold readTerms
      split
      · contradiction
      · exact absurd rfl (hcomma ',' rfl)
      · rfl
  | cons i more ih =>
    obtain ⟨hspan, hstep⟩ := hread i List.mem_cons_self
    obtain ⟨rest', hterm, hleaves⟩ := readTerm_text any hspan hstep (hends.ends_moreText more)
    rw [Items.moreText_cons_append] at hs
    obtain rfl := hs.eq_of_cons (by decide)
    cases fuel with
    | zero => exact absurd hfuel (Nat.not_succ_le_zero _)
    | succ fuel =>
      obtain ⟨rest'', hterms, hleaves'⟩ := ih (fun j hj => hread j (List.mem_cons_of_mem i hj))
        (Nat.le_of_succ_le_succ hfuel) hleaves
      refine ⟨rest'', ?_, hleaves'⟩
      rw [readTerms]
      simp only [hterm, hterms]
      rfl

theorem length_le_of_leaves {more : List Item} {rest s : List Char}
    (hs : Leaves (Items.moreText more ++ rest) s) : more.length ≤ s.length := by
  cases more with
  | nil => exact Nat.zero_le _
  | cons i more =>
    have heq : s = Items.moreText (i :: more) ++ rest := by
      rw [Items.moreText_cons_append] at hs ⊢
      exact hs.eq_of_cons (by decide)
    rw [heq, List.length_append]
    exact Nat.le_add_right_of_le (Items.length_le_length_moreText _)

theorem Span.text_cons (span : Span) :
    ∃ c s, span.text = c :: s ∧ (Text.isDigit c = true ∨ c = '*') := by
  cases span with
  | all => exact ⟨'*', [], rfl, Or.inr rfl⟩
  | number n =>
    obtain ⟨c, digits, heq, hc⟩ := n.exists_cons
    exact ⟨c, digits, heq, Or.inl hc⟩
  | range first last =>
    obtain ⟨c, digits, heq, hc⟩ := first.exists_cons
    refine ⟨c, digits ++ '-' :: last.digits, ?_, Or.inl hc⟩
    rw [text, heq, List.cons_append]

theorem Items.text_cons (l : Items) :
    ∃ c s, l.text = c :: s ∧ (Text.isDigit c = true ∨ c = '*') := by
  obtain ⟨rest, hrest⟩ : ∃ rest, l.text = l.first.span.text ++ rest :=
    ⟨_, List.append_assoc _ _ _⟩
  obtain ⟨c, s, heq, hc⟩ := l.first.span.text_cons
  refine ⟨c, s ++ rest, ?_, hc⟩
  rw [hrest, heq, List.cons_append]

theorem isGap_of_digit_or_star {c : Char} (h : Text.isDigit c = true ∨ c = '*') :
    isGap c = false := by
  rcases h with h | rfl
  · exact isGap_of_isDigit h
  · decide

/-- What a field is read as. -/
def Items.terms (l : Items) : List Term :=
  l.list.map Item.term

theorem readFieldTerms_text (any : Bool) {l : Items}
    (hread : ∀ i ∈ l.list, i.span.Readable ∧ i.stride ≤ 4294967295) {rest : List Char}
    (hends : EndsField rest) :
    readFieldTerms any (l.text ++ rest) = some (l.terms, skipGap rest) := by
  obtain ⟨c, s, htext, hc⟩ := l.text_cons
  have hskip : skipGap (l.text ++ rest) = l.text ++ rest := by
    rw [htext]
    exact skipGap_cons_of_not_gap (isGap_of_digit_or_star hc) _
  obtain ⟨hspan, hstep⟩ := hread l.first List.mem_cons_self
  obtain ⟨rest', hterm, hleaves⟩ := readTerm_text any hspan hstep (hends.ends_moreText l.more)
  have hfuel := length_le_of_leaves hleaves
  obtain ⟨rest'', hterms, hleaves'⟩ := readTerms_text any
    (fun i hi => hread i (List.mem_cons_of_mem _ hi)) hends hfuel hleaves
  unfold readFieldTerms
  rw [hskip, Items.text, List.append_assoc, hterm]
  simp only [hterms, hleaves'.skipGap_eq]
  rfl

end RunScheduler.Cron
