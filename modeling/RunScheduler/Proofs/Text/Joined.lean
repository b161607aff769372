import Mathlib.Data.List.Forall2
import RunScheduler.Proofs.Text

/-!
# Texts joined by a separator

Pieces may be joined by a separator with spaces on both sides of it (`Joined`). Where no piece has
the separator in it, the text is taken apart into these pieces, spaces around all of it included
(`map_trim_splitAt`). A joined text may be a piece of another one itself, such as a line of parts
with lists in them: its marks are those of its pieces and the separator (`Joined.plain`).
-/

namespace RunScheduler.Text

/-- White space that ends no line. -/
def isSpace (c : Char) : Bool :=
  isBlank c && c != '\n'

def Spaces (s : List Char) : Prop :=
  ∀ c ∈ s, isSpace c = true

instance (s : List Char) : Decidable (Spaces s) :=
  decidable_of_iff (s.all isSpace = true) List.all_eq_true

theorem Spaces.nil : Spaces [] := nofun

theorem isBlank_of_isSpace {c : Char} (h : isSpace c = true) : isBlank c = true :=
  (Bool.and_eq_true _ _ ▸ h).1

theorem Spaces.isBlank {s : List Char} (h : Spaces s) : ∀ c ∈ s, Text.isBlank c = true :=
  fun c hc => isBlank_of_isSpace (h c hc)

theorem Spaces.notMem {s : List Char} (h : Spaces s) {c : Char} (hc : isSpace c = false) :
    c ∉ s := by
  intro hmem
  rw [h c hmem] at hc
  cases hc

/-! ### Texts without white space at their ends -/

/-- A text that is not empty and has no white space at its ends. -/
structure Core (s : List Char) : Prop where
  ne_nil : s ≠ []
  head : ∀ c ∈ s.head?, isBlank c = false
  last : ∀ c ∈ s.getLast?, isBlank c = false

theorem Core.append {s t : List Char} (hs : Core s) (ht : Core t) (mid : List Char) :
    Core (s ++ mid ++ t) where
  ne_nil := List.append_ne_nil_of_right_ne_nil _ ht.ne_nil
  head := by
    rw [List.append_assoc, List.head?_append_of_ne_nil _ hs.ne_nil]
    exact hs.head
  last := by
    rw [List.getLast?_append_of_ne_nil _ ht.ne_nil]
    exact ht.last

theorem trim_around {a s b : List Char} (ha : Spaces a) (hs : Core s) (hb : Spaces b) :
    trim (a ++ s ++ b) = s := by
  have hstart : trimStart (a ++ s ++ b) = s ++ b := by
    rw [trimStart, List.append_assoc, List.dropWhile_append_of_pos ha.isBlank]
    refine dropWhile_eq_self_of_head ?_
    rw [List.head?_append_of_ne_nil _ hs.ne_nil]
    exact hs.head
  rw [trim, hstart, trimEnd, List.reverse_append,
    List.dropWhile_append_of_pos fun c hc => hb.isBlank c (List.mem_reverse.mp hc),
    dropWhile_eq_self_of_head (by simpa using hs.last), List.reverse_reverse]

theorem trim_after {a s : List Char} (ha : Spaces a) (hs : Core s) : trim (a ++ s) = s := by
  rw [← List.append_nil (a ++ s), trim_around ha hs .nil]

theorem trim_before {s b : List Char} (hs : Core s) (hb : Spaces b) : trim (s ++ b) = s :=
  trim_around .nil hs hb

/-- Letters and digits, at least one. -/
structure Word (s : List Char) : Prop where
  ne_nil : s ≠ []
  isAlphanum : ∀ c ∈ s, c.isAlphanum = true

theorem word_of_all {s : List Char} (h : (!s.isEmpty && s.all Char.isAlphanum) = true) : Word s := by
  rw [Bool.and_eq_true, List.all_eq_true] at h
  exact ⟨by simpa using h.1, h.2⟩

theorem toNat_of_isAlphanum {c : Char} (h : c.isAlphanum = true) :
    48 ≤ c.toNat ∧ c.toNat ≤ 57 ∨ 65 ≤ c.toNat ∧ c.toNat ≤ 90 ∨ 97 ≤ c.toNat ∧ c.toNat ≤ 122 := by
  have hchar : ((decide ('A'.val ≤ c.val ∧ c.val ≤ 'Z'.val) ||
      decide ('a'.val ≤ c.val) && decide (c.val ≤ 'z'.val)) ||
      decide ('0'.val ≤ c.val) && decide (c.val ≤ '9'.val)) = true := h
  simp only [Bool.or_eq_true, Bool.and_eq_true, decide_eq_true_eq, UInt32.le_iff_toNat_le] at hchar
  rcases hchar with (h | h) | h
  · exact Or.inr (Or.inl h)
  · exact Or.inr (Or.inr h)
  · exact Or.inl h

theorem isBlank_of_isAlphanum {c : Char} (h : c.isAlphanum = true) : isBlank c = false := by
  have hrange := toNat_of_isAlphanum h
  simp [isBlank]
  omega

theorem Word.core {s : List Char} (h : Word s) : Core s where
  ne_nil := h.ne_nil
  head c hc := isBlank_of_isAlphanum (h.isAlphanum c (List.mem_of_mem_head? hc))
  last c hc := isBlank_of_isAlphanum (h.isAlphanum c (List.mem_of_mem_getLast? hc))

theorem Word.notMem {s : List Char} (h : Word s) {c : Char} (hc : c.isAlphanum = false) : c ∉ s := by
  intro hmem
  rw [h.isAlphanum c hmem] at hc
  cases hc

/-! ### Joined texts -/

/-- The pieces with a separator between each two, and spaces around it. -/
inductive Joined (sep : Char) : List (List Char) → List Char → Prop
  | one (piece : List Char) : Joined sep [piece] piece
  | cons {piece a b rest : List Char} {pieces : List (List Char)} (ha : Spaces a) (hb : Spaces b)
      (h : Joined sep pieces rest) :
      Joined sep (piece :: pieces) (piece ++ a ++ sep :: (b ++ rest))

variable {sep : Char} {pieces : List (List Char)} {s : List Char}

theorem Joined.core (h : Joined sep pieces s) (hpieces : ∀ piece ∈ pieces, Core piece) : Core s := by
  induction h with
  | one piece => exact hpieces piece (List.mem_singleton_self piece)
  | @cons piece a b rest pieces _ _ _ ih =>
    rw [List.forall_mem_cons] at hpieces
    have hcore := hpieces.1.append (ih hpieces.2) (a ++ sep :: b)
    simpa using hcore

theorem Joined.mem (h : Joined sep pieces s) {c : Char} (hc : c ∈ s) :
    c = sep ∨ isSpace c = true ∨ ∃ piece ∈ pieces, c ∈ piece := by
  induction h with
  | one piece => exact Or.inr (Or.inr ⟨piece, List.mem_singleton_self piece, hc⟩)
  | cons ha hb _ ih =>
    simp only [List.mem_append, List.mem_cons] at hc
    rcases hc with (hc | hc) | rfl | hc | hc
    · exact Or.inr (Or.inr ⟨_, List.mem_cons_self, hc⟩)
    · exact Or.inr (Or.inl (ha c hc))
    · exact Or.inl rfl
    · exact Or.inr (Or.inl (hb c hc))
    · refine (ih hc).imp_right (Or.imp_right ?_)
      rintro ⟨piece, hpiece, hmem⟩
      exact ⟨piece, List.mem_cons_of_mem _ hpiece, hmem⟩

/-- A joined text is taken apart into its pieces. -/
theorem Joined.map_trim_splitAt (h : Joined sep pieces s) (hsep : isSpace sep = false)
    (hpieces : ∀ piece ∈ pieces, Core piece ∧ sep ∉ piece) {a b : List Char} (ha : Spaces a)
    (hb : Spaces b) : (splitAt sep (a ++ s ++ b)).map trim = pieces := by
  induction h generalizing a with
  | one piece =>
    obtain ⟨hcore, hnone⟩ := hpieces piece (List.mem_singleton_self piece)
    have hall : sep ∉ a ++ piece ++ b := by
      simp [ha.notMem hsep, hb.notMem hsep, hnone]
    rw [splitAt_eq_singleton hall, List.map_singleton, trim_around ha hcore hb]
  | @cons piece a' b' rest pieces ha' hb' _ ih =>
    rw [List.forall_mem_cons] at hpieces
    obtain ⟨⟨hcore, hnone⟩, hrest⟩ := hpieces
    have hfirst : sep ∉ a ++ piece ++ a' := by
      simp [ha.notMem hsep, ha'.notMem hsep, hnone]
    have hshape : a ++ (piece ++ a' ++ sep :: (b' ++ rest)) ++ b =
        (a ++ piece ++ a') ++ sep :: (b' ++ rest ++ b) := by
      simp
    rw [hshape, splitAt_append_cons hfirst, List.map_cons, trim_around ha hcore ha', ih hrest hb']

theorem Joined.exists_cutFirst {key value : List Char} (h : Joined sep [key, value] s)
    (hsep : isSpace sep = false) (hkey : sep ∉ key) :
    ∃ a b, Spaces a ∧ Spaces b ∧ cutFirst sep s = some (key ++ a, b ++ value) := by
  cases h with
  | @cons _ a b _ _ ha hb hlast =>
    cases hlast with
    | one =>
      refine ⟨a, b, ha, hb, cutFirst_append_cons ?_ _⟩
      simp [ha.notMem hsep, hkey]
    | cons _ _ hnone => cases hnone

theorem Joined.head? {piece : List Char} (h : Joined sep (piece :: pieces) s) (hne : piece ≠ []) :
    s.head? = piece.head? := by
  cases h with
  | one => rfl
  | cons => rw [List.append_assoc, List.head?_append_of_ne_nil _ hne]

theorem exists_joined (sep : Char) (hne : pieces ≠ []) : ∃ s, Joined sep pieces s := by
  induction pieces with
  | nil => exact absurd rfl hne
  | cons piece pieces ih =>
    by_cases hlast : pieces = []
    · rw [hlast]
      exact ⟨piece, .one piece⟩
    · obtain ⟨rest, hrest⟩ := ih hlast
      exact ⟨_, .cons .nil .nil hrest⟩

/-! ### The characters of a text -/

/-- A text without white space at its ends, of letters, digits, spaces and some marks. -/
structure Plain (marks s : List Char) : Prop extends Core s where
  chars : ∀ c ∈ s, c.isAlphanum = true ∨ isSpace c = true ∨ c ∈ marks

variable {marks : List Char}

theorem Word.plain (h : Word s) : Plain marks s where
  toCore := h.core
  chars c hc := Or.inl (h.isAlphanum c hc)

theorem Plain.mono {marks' : List Char} (h : Plain marks s) (hsub : marks ⊆ marks') :
    Plain marks' s where
  toCore := h.toCore
  chars c hc := (h.chars c hc).imp_right (Or.imp_right fun hmark => hsub hmark)

theorem Plain.append {t mid : List Char} (hs : Plain marks s) (ht : Plain marks t)
    (hmid : ∀ c ∈ mid, c.isAlphanum = true ∨ isSpace c = true ∨ c ∈ marks) :
    Plain marks (s ++ mid ++ t) where
  toCore := hs.toCore.append ht.toCore mid
  chars := List.forall_mem_append.mpr ⟨List.forall_mem_append.mpr ⟨hs.chars, hmid⟩, ht.chars⟩

theorem Plain.notMem (h : Plain marks s) {c : Char} (hword : c.isAlphanum = false)
    (hspace : isSpace c = false) (hmark : c ∉ marks) : c ∉ s := by
  intro hmem
  rcases h.chars c hmem with hc | hc | hc
  · rw [hc] at hword
    cases hword
  · rw [hc] at hspace
    cases hspace
  · exact hmark hc

theorem Joined.plain (h : Joined sep pieces s) (hpieces : ∀ piece ∈ pieces, Plain marks piece) :
    Plain (sep :: marks) s where
  toCore := h.core fun piece hpiece => (hpieces piece hpiece).toCore
  chars c hc := by
    rcases h.mem hc with rfl | hspace | ⟨piece, hpiece, hmem⟩
    · exact Or.inr (Or.inr List.mem_cons_self)
    · exact Or.inr (Or.inl hspace)
    · exact ((hpieces piece hpiece).chars c hmem).imp_right (Or.imp_right (List.mem_cons_of_mem _))

/-! ### Texts of lists -/

/-- The texts of some values, with a separator between each two. -/
def Listed {α : Type} (sep : Char) (item : α → List Char → Prop) (l : List α) (s : List Char) :
    Prop :=
  ∃ pieces, List.Forall₂ item l pieces ∧ Joined sep pieces s

variable {α : Type} {item : α → List Char → Prop} {l : List α}

theorem exists_mem_of_forall₂ (h : List.Forall₂ item l pieces) {piece : List Char}
    (hpiece : piece ∈ pieces) : ∃ x ∈ l, item x piece := by
  induction h with
  | nil => cases hpiece
  | cons hfirst _ ih =>
    rcases List.mem_cons.mp hpiece with rfl | hrest
    · exact ⟨_, List.mem_cons_self, hfirst⟩
    · obtain ⟨x, hx, hitem⟩ := ih hrest
      exact ⟨x, List.mem_cons_of_mem _ hx, hitem⟩

theorem Listed.plain (h : Listed sep item l s)
    (hitem : ∀ x ∈ l, ∀ piece, item x piece → Plain marks piece) : Plain (sep :: marks) s := by
  obtain ⟨pieces, hpieces, hjoined⟩ := h
  refine hjoined.plain fun piece hpiece => ?_
  obtain ⟨x, hx, hpiece⟩ := exists_mem_of_forall₂ hpieces hpiece
  exact hitem x hx piece hpiece

theorem Listed.exists_pieces (h : Listed sep item l s) (hword : sep.isAlphanum = false)
    (hspace : isSpace sep = false) (hmark : sep ∉ marks)
    (hitem : ∀ x ∈ l, ∀ piece, item x piece → Plain marks piece) {a b : List Char} (ha : Spaces a)
    (hb : Spaces b) :
    ∃ pieces, (splitAt sep (a ++ s ++ b)).map trim = pieces ∧ List.Forall₂ item l pieces := by
  obtain ⟨pieces, hpieces, hjoined⟩ := h
  refine ⟨pieces, hjoined.map_trim_splitAt hspace (fun piece hpiece => ?_) ha hb, hpieces⟩
  obtain ⟨x, hx, hpiece⟩ := exists_mem_of_forall₂ hpieces hpiece
  have hplain := hitem x hx piece hpiece
  exact ⟨hplain.toCore, hplain.notMem hword hspace hmark⟩

theorem exists_listed (sep : Char) (hne : l ≠ []) (hitem : ∀ x ∈ l, ∃ piece, item x piece) :
    ∃ s, Listed sep item l s := by
  have hpieces : ∃ pieces, List.Forall₂ item l pieces := by
    clear hne
    induction l with
    | nil => exact ⟨[], .nil⟩
    | cons x l ih =>
      rw [List.forall_mem_cons] at hitem
      obtain ⟨piece, hpiece⟩ := hitem.1
      obtain ⟨pieces, hpieces⟩ := ih hitem.2
      exact ⟨piece :: pieces, .cons hpiece hpieces⟩
  obtain ⟨pieces, hpieces⟩ := hpieces
  have hsome : pieces ≠ [] := by
    rintro rfl
    exact hne (List.forall₂_nil_right_iff.mp hpieces)
  obtain ⟨s, hs⟩ := exists_joined sep hsome
  exact ⟨s, pieces, hpieces, hs⟩

end RunScheduler.Text
