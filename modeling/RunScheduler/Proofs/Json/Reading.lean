import RunScheduler.Json.Printer
import RunScheduler.Json.Reader
import RunScheduler.Proofs.Text

/-!
# JSON text reads back

The text of a value gives the value back (`ofString?_toText`), if its numbers are integers of at
most 64 bits and its arrays and objects are nested no deeper than the reader goes (`Fits`). The
strings of it may have any characters: each is read as it was written, whether it is escaped or
not (`readChars_escapeChar`).

The proof follows the nesting. A value is read from the front of a text that goes on with
anything that does not continue a number (`EndsNumber`), and the reader's fuel lasts because two
units are there for each character.
-/

namespace RunScheduler.Json

open Text

variable {j : Json} {depth fuel : Nat} {rest : List Char}

/-! ### Strings -/

theorem readUnit_hexDigits {n : Nat} (h : n < 16 ^ 4) :
    readUnit (hexDigits 4 n ++ rest) = some (n, rest) := by
  have hvalue := hexValue?_hexDigits 4 n
  rw [Nat.mod_eq_of_lt h] at hvalue
  have hfour : hexDigits 4 n = [hexChar (n / 16 / 16 / 16 % 16), hexChar (n / 16 / 16 % 16),
      hexChar (n / 16 % 16), hexChar (n % 16)] := rfl
  rw [hfour] at hvalue ⊢
  show (hexValue? _).map _ = _
  rw [hvalue]
  rfl

theorem escapeChar_ne_nil (c : Char) : escapeChar c ≠ [] := by
  unfold escapeChar
  split_ifs <;> exact List.cons_ne_nil _ _

theorem readChars_escapeChar (fuel : Nat) (found : List Char) (c : Char) :
    readChars (fuel + 1) found (escapeChar c ++ rest) = readChars fuel (c :: found) rest := by
  have hescape {s : List Char} {d : Char} (h : readEscape s = some (d, rest)) :
      readChars (fuel + 1) found ('\\' :: s) = readChars fuel (d :: found) rest := by
    rw [readChars, if_neg (by decide), if_pos rfl, h]
  unfold escapeChar
  split_ifs with hquote hbackslash hnewline hreturn htab hback hfeed hcontrol
  · rw [hquote]
    exact hescape rfl
  · rw [hbackslash]
    exact hescape rfl
  · rw [hnewline]
    exact hescape rfl
  · rw [hreturn]
    exact hescape rfl
  · rw [htab]
    exact hescape rfl
  · rw [hback]
    exact hescape rfl
  · rw [hfeed]
    exact hescape rfl
  · apply hescape
    show readEscape ('u' :: (hexDigits 4 c.toNat ++ rest)) = some (c, rest)
    rw [readEscape, readUnit_hexDigits (Nat.lt_trans hcontrol (by decide))]
    dsimp only
    rw [if_neg (by omega), if_neg (by omega), Char.ofNat_toNat]
  · rw [List.cons_append, readChars, if_neg hquote, if_neg hbackslash, if_neg hcontrol,
      List.nil_append]

theorem readChars_flatMap_escapeChar {s found : List Char}
    (h : (s.flatMap escapeChar).length < fuel) :
    readChars fuel found (s.flatMap escapeChar ++ '"' :: rest) =
      some (found.reverse ++ s, rest) := by
  induction s generalizing fuel found with
  | nil =>
    obtain ⟨fuel, rfl⟩ := Nat.exists_eq_add_one.mpr (Nat.zero_lt_of_lt h)
    rw [List.flatMap_nil, List.nil_append, readChars, if_pos rfl, List.append_nil]
  | cons c s ih =>
    rw [List.flatMap_cons, List.length_append] at h
    have hpos := List.length_pos_iff.mpr (escapeChar_ne_nil c)
    obtain ⟨fuel, rfl⟩ := Nat.exists_eq_add_one.mpr (Nat.zero_lt_of_lt h)
    rw [List.flatMap_cons, List.append_assoc, readChars_escapeChar, ih (by omega),
      List.reverse_cons, List.append_assoc, List.singleton_append]

theorem toList_quote (s : String) :
    (quote s).toList = '"' :: (s.toList.flatMap escapeChar ++ ['"']) := by
  simp [quote]

theorem readChars_quote (s : String) :
    let text := s.toList.flatMap escapeChar ++ '"' :: rest
    readChars (text.length + 1) [] text = some (s.toList, rest) := by
  intro text
  apply readChars_flatMap_escapeChar
  rw [List.length_append]
  omega

/-! ### Numbers -/

/-- The text does not go on with a number. -/
def EndsNumber (rest : List Char) : Prop :=
  ∀ c ∈ rest.head?, isDigit c = false ∧ c ≠ '.' ∧ c ≠ 'e' ∧ c ≠ 'E'

theorem appendDigits_eq {s : List Char} {n : Nat}
    (h : s.foldl (fun n c => 10 * n + (digit? c).getD 0) n < 1 <<< 64) :
    appendDigits n s = (s.foldl (fun n c => 10 * n + (digit? c).getD 0) n, []) := by
  have hle (s : List Char) (n : Nat) : n ≤ s.foldl (fun n c => 10 * n + (digit? c).getD 0) n := by
    induction s generalizing n with
    | nil => exact Nat.le_refl n
    | cons c s ih =>
      have hfirst : n ≤ 10 * n + (digit? c).getD 0 := by omega
      exact Nat.le_trans hfirst (ih _)
  induction s generalizing n with
  | nil => rfl
  | cons c s ih =>
    rw [List.foldl_cons] at h
    have hfirst := Nat.lt_of_le_of_lt (hle s _) h
    rw [appendDigits, if_pos hfirst, ih h, List.foldl_cons]

theorem roundToDouble_lt {n : Nat} (h : n < 1 <<< 64) : roundToDouble n < 1 <<< 65 := by
  have hlog : n.log2 < 64 := by
    by_cases hzero : n = 0
    · rw [hzero]
      decide
    · exact (Nat.log2_lt hzero).mpr h
  have hbound {shift : Nat} (hshift : shift < 64) : (n >>> shift + 1) <<< shift < 1 <<< 65 := by
    have hpower : 2 ^ shift ≤ 2 ^ 63 := Nat.pow_le_pow_right (by decide) (by omega)
    have hdown := Nat.div_mul_le_self n (2 ^ shift)
    rw [Nat.shiftLeft_eq, Nat.shiftRight_eq_div_pow, Nat.add_mul, Nat.one_mul]
    exact Nat.lt_of_le_of_lt (Nat.add_le_add hdown hpower) (by omega)
  have hdown {shift : Nat} : (n >>> shift) <<< shift ≤ (n >>> shift + 1) <<< shift := by
    rw [Nat.shiftLeft_eq, Nat.shiftLeft_eq]
    exact Nat.mul_le_mul_right _ (Nat.le_succ _)
  have hshift : n.log2 - 52 < 64 := by omega
  unfold roundToDouble
  dsimp only
  split_ifs
  · exact Nat.lt_of_le_of_lt hdown (hbound hshift)
  · exact hbound hshift

theorem isInDoubleRange_natText {n : Nat} (h : n < 1 <<< 64) :
    isInDoubleRange (natText n) [] 0 = true := by
  have hdigits : appendDigits 0 (natText n) = (n, []) := by
    have hvalue : (natText n).foldl (fun n c => 10 * n + (digit? c).getD 0) 0 = n :=
      digitsValue_natText n
    rw [appendDigits_eq (by rwa [hvalue]), hvalue]
  have hlimit : roundToDouble n * roundToDouble (Nat.pow 10 0) < doubleLimit := by
    rw [show roundToDouble (Nat.pow 10 0) = 1 from rfl, Nat.mul_one]
    exact Nat.lt_trans (roundToDouble_lt h) (by decide)
  unfold isInDoubleRange
  rw [hdigits]
  simp only [appendDigits, List.length_nil]
  exact decide_eq_true (Or.inr (Or.inr ⟨by decide, hlimit⟩))

theorem natText_ne_nil (n : Nat) : natText n ≠ [] :=
  Nat.toDigits_ne_nil

theorem head?_natText_ne {n : Nat} (h : 0 < n) : ∀ c ∈ (natText n).head?, c ≠ '0' := by
  induction n using Nat.strongRecOn with
  | ind n ih =>
    unfold natText at ih ⊢
    rcases Nat.lt_or_ge n 10 with hlt | hge
    · rw [Nat.toDigits_of_lt_base hlt]
      intro c hc
      obtain rfl := Option.some.inj hc
      have hall : ∀ n : Fin 10, 0 < n.val → n.val.digitChar ≠ '0' := by decide
      exact hall ⟨n, hlt⟩ h
    · rw [Nat.toDigits_of_base_le (by decide) hge, List.head?_append_of_ne_nil _
        Nat.toDigits_ne_nil]
      exact ih (n / 10) (by omega) (by omega)

theorem readDigits_natText (n : Nat) (hrest : EndsNumber rest) :
    readDigits (natText n ++ rest) = some (natText n, rest) := by
  have hall : ∀ c ∈ natText n, Text.isDigit c = true := fun c hc =>
    isDigit_of_char (Nat.isDigit_of_mem_toDigits (by decide) (by decide) hc)
  have htaken := takeWhile_append_of_end hall fun c hc => (hrest c hc).1
  unfold readDigits
  dsimp only
  rw [htaken, if_neg (by rw [List.isEmpty_iff]; exact natText_ne_nil n), List.drop_left]

theorem readWhole_natText (n : Nat) (hrest : EndsNumber rest) :
    readWhole (natText n ++ rest) = some (natText n, rest) := by
  by_cases hzero : n = 0
  · rw [hzero]
    rfl
  · have hne := head?_natText_ne (Nat.pos_of_ne_zero hzero)
    rw [← readDigits_natText n hrest]
    unfold readWhole
    split
    · rename_i heq
      have hhead := congrArg List.head? heq
      rw [List.head?_append_of_ne_nil _ (natText_ne_nil n)] at hhead
      exact absurd rfl (hne '0' hhead)
    · rfl

theorem readFraction_of_endsNumber (hrest : EndsNumber rest) :
    Json.readFraction rest = some ([], rest) := by
  unfold Json.readFraction
  split
  · exact absurd rfl (hrest '.' rfl).2.1
  · rfl

theorem readExponent_of_endsNumber (hrest : EndsNumber rest) :
    readExponent rest = some ([], rest) := by
  cases rest with
  | nil => rfl
  | cons c rest =>
    obtain ⟨-, -, hlower, hupper⟩ := hrest c rfl
    unfold readExponent
    dsimp only
    rw [if_neg (not_or.mpr ⟨hlower, hupper⟩)]

theorem readNumeral_natText (n : Nat) (hrest : EndsNumber rest) :
    readNumeral (natText n ++ rest) = some (⟨false, natText n, [], []⟩, rest) := by
  have hplain (tail : List Char) : natText n ++ rest ≠ '-' :: tail := by
    intro heq
    have hhead := congrArg List.head? heq
    rw [List.head?_append_of_ne_nil _ (natText_ne_nil n)] at hhead
    have hdigit := Nat.isDigit_of_mem_toDigits (by decide) (by decide)
      (List.mem_of_mem_head? hhead)
    exact absurd hdigit (by decide)
  unfold readNumeral
  split
  rename_i minus s heq
  split at heq
  · exact absurd ‹_› (hplain _)
  · cases heq
    simp [readWhole_natText n hrest, readFraction_of_endsNumber hrest,
      readExponent_of_endsNumber hrest]

theorem readNumeral_minus (n : Nat) (hrest : EndsNumber rest) :
    readNumeral ('-' :: (natText n ++ rest)) = some (⟨true, natText n, [], []⟩, rest) := by
  simp [readNumeral, readWhole_natText n hrest, readFraction_of_endsNumber hrest,
    readExponent_of_endsNumber hrest]

theorem readNumeral_intText (n : Int) (hrest : EndsNumber rest) :
    readNumeral (intText n ++ rest) = some (⟨n < 0, natText n.natAbs, [], []⟩, rest) := by
  unfold intText
  split_ifs with hneg
  · rw [List.cons_append, readNumeral_minus _ hrest, decide_eq_true hneg]
  · rw [readNumeral_natText _ hrest, decide_eq_false hneg]

theorem value_natText (n : Int) :
    Numeral.value ⟨n < 0, natText n.natAbs, [], []⟩ = .integer n := by
  have hzero : n < 0 → natText n.natAbs ≠ ['0'] := by
    intro hneg heq
    have hne := head?_natText_ne (Int.natAbs_pos.mpr (Int.ne_of_lt hneg))
    rw [heq] at hne
    exact hne '0' rfl rfl
  unfold Numeral.value Numeral.isInteger
  dsimp only
  rw [digitsValue_natText]
  by_cases hneg : n < 0
  · rw [decide_eq_true hneg, beq_eq_false_iff_ne.mpr (hzero hneg)]
    show integer (-(n.natAbs : Int)) = integer n
    rw [Int.ofNat_natAbs_of_nonpos (Int.le_of_lt hneg), Int.neg_neg]
  · rw [decide_eq_false hneg]
    show integer (n.natAbs : Int) = integer n
    rw [Int.natAbs_of_nonneg (Int.not_lt.mp hneg)]

theorem readNumber_intText {n : Int} (h : n.natAbs < 1 <<< 64) (hrest : EndsNumber rest) :
    readNumber (intText n ++ rest) = some (.integer n, rest) := by
  unfold readNumber
  rw [readNumeral_intText n hrest]
  show (if isInDoubleRange (natText n.natAbs) [] 0 then
    some (Numeral.value ⟨n < 0, natText n.natAbs, [], []⟩, rest) else none) = _
  rw [if_pos (isInDoubleRange_natText h), value_natText]

/-! ### Values -/

/-- A value whose text can be read: integers of at most 64 bits, and arrays and objects nested no
deeper than this. -/
inductive Fits : (depth : Nat) → Json → Prop
  | null {depth : Nat} : Fits depth .null
  | bool {depth : Nat} (b : Bool) : Fits depth (.bool b)
  | integer {depth : Nat} {n : Int} (h : n.natAbs < 1 <<< 64) : Fits depth (.integer n)
  | string {depth : Nat} (s : String) : Fits depth (.string s)
  | array {depth : Nat} {items : List Json} (h : ∀ j ∈ items, Fits depth j) :
    Fits (depth + 1) (.array items)
  | object {depth : Nat} {members : List (String × Json)} (h : ∀ m ∈ members, Fits depth m.2) :
    Fits (depth + 1) (.object members)

section Texts

variable (name s : String) (n : Int) (items : List Json) (members : List (String × Json))

theorem toList_toText_integer : (integer n).toText.toList = intText n := by
  simp [toText, scalarText]

theorem toList_toText_string :
    (string s).toText.toList = '"' :: (s.toList.flatMap escapeChar ++ ['"']) := by
  simp [toText, scalarText, toList_quote]

theorem toList_toText_array :
    (array items).toText.toList = '[' :: ((itemsText items).toList ++ [']']) := by
  simp [toText]

theorem toList_toText_object :
    (object members).toText.toList = '\x7b' :: ((membersText members).toList ++ ['\x7d']) := by
  simp [toText]

theorem toList_itemsText_cons (j j' : Json) :
    (itemsText (j :: j' :: items)).toList =
      j.toText.toList ++ ',' :: (itemsText (j' :: items)).toList := by
  simp [itemsText]

theorem toList_membersText_singleton (j : Json) :
    (membersText [(name, j)]).toList =
      '"' :: (name.toList.flatMap escapeChar ++ '"' :: ':' :: j.toText.toList) := by
  simp [membersText, toList_quote]

theorem toList_membersText_cons (j : Json) (m : String × Json) :
    (membersText ((name, j) :: m :: members)).toList =
      '"' :: (name.toList.flatMap escapeChar ++
        '"' :: ':' :: (j.toText.toList ++ ',' :: (membersText (m :: members)).toList)) := by
  simp [membersText, toList_quote]

end Texts

theorem skipSpace_cons {c : Char} (h : isSpace c = false) (s : List Char) :
    skipSpace (c :: s) = c :: s := by
  unfold skipSpace
  rw [List.dropWhile_cons_of_neg (by rw [h]; decide)]

theorem readValue_string (fuel depth : Nat) (s : List Char) :
    readValue (fuel + 1) depth ('"' :: s) =
      (readChars (s.length + 1) [] s).map fun (cs, r) => (.string (String.ofList cs), r) := by
  rw [readValue, skipSpace_cons (by decide)]
  rfl

theorem readValue_array {c : Char} (fuel depth : Nat) (s : List Char) (hspace : isSpace c = false)
    (hc : c ≠ ']') :
    readValue (fuel + 1) (depth + 1) ('[' :: c :: s) =
      (readItems fuel depth (c :: s)).map fun (js, r) => (.array js, r) := by
  have hne : ∀ tail, c :: s ≠ ']' :: tail := fun tail heq => hc (List.cons.inj heq).1
  rw [readValue, skipSpace_cons (by decide)]
  simp only [skipSpace_cons hspace]

theorem readValue_object (fuel depth : Nat) (s : List Char) :
    readValue (fuel + 1) (depth + 1) ('\x7b' :: '"' :: s) =
      (readMembers fuel depth ('"' :: s)).map fun (ms, r) => (.object ms, r) := by
  rw [readValue, skipSpace_cons (by decide)]
  simp only [skipSpace_cons (show isSpace '"' = false by decide)]
  rfl

theorem intText_eq_cons (n : Int) :
    ∃ c s, intText n = c :: s ∧ (isDigit c = true ∨ c = '-') := by
  unfold intText
  split_ifs
  · exact ⟨'-', _, rfl, Or.inr rfl⟩
  · obtain ⟨c, s, heq⟩ := List.exists_cons_of_ne_nil (natText_ne_nil n.natAbs)
    have hmem : c ∈ Nat.toDigits 10 n.natAbs := by
      change Nat.toDigits 10 n.natAbs = c :: s at heq
      rw [heq]
      exact List.mem_cons_self
    exact ⟨c, s, heq, Or.inl (isDigit_of_char
      (Nat.isDigit_of_mem_toDigits (by decide) (by decide) hmem))⟩

theorem isSpace_of_digit_or_minus {c : Char} (h : isDigit c = true ∨ c = '-') :
    isSpace c = false := by
  rw [Bool.eq_false_iff]
  intro hyes
  have hblank : c = ' ' ∨ c = '\t' ∨ c = '\r' ∨ c = '\n' := by
    simpa [isSpace, or_assoc] using hyes
  rcases hblank with rfl | rfl | rfl | rfl <;> exact absurd h (by decide)

theorem readValue_number {c : Char} (fuel depth : Nat) (s : List Char)
    (h : isDigit c = true ∨ c = '-') :
    readValue (fuel + 1) depth (c :: s) = readNumber (c :: s) := by
  rw [readValue, skipSpace_cons (isSpace_of_digit_or_minus h)]
  split
  case h_1 heq => cases heq
  case h_8 => rfl
  all_goals
    rename_i heq
    cases heq
    exact absurd h (by decide)

theorem endsNumber_cons {c : Char} (h : isDigit c = false ∧ c ≠ '.' ∧ c ≠ 'e' ∧ c ≠ 'E')
    (s : List Char) : EndsNumber (c :: s) := by
  intro d hd
  cases hd
  exact h

/-- A value is read from the front of a text, with two units of fuel for each character. -/
def ReadsBack (depth : Nat) (j : Json) : Prop :=
  ∀ fuel rest, 2 * j.toText.toList.length ≤ fuel → EndsNumber rest →
    readValue fuel depth (j.toText.toList ++ rest) = some (j, rest)

section Steps

variable {s : List Char}

theorem readItems_of_end (h : readValue fuel depth s = some (j, ']' :: rest)) :
    readItems (fuel + 1) depth s = some ([j], rest) := by
  simp only [readItems, h, skipSpace_cons (show isSpace ']' = false by decide)]

theorem readItems_of_comma (h : readValue fuel depth s = some (j, ',' :: rest)) :
    readItems (fuel + 1) depth s =
      (readItems fuel depth rest).map fun (js, r) => (j :: js, r) := by
  simp only [readItems, h, skipSpace_cons (show isSpace ',' = false by decide)]

theorem readMembers_of_end (name : String)
    (h : readValue fuel depth s = some (j, '\x7d' :: rest)) :
    readMembers (fuel + 1) depth
        ('"' :: (name.toList.flatMap escapeChar ++ '"' :: ':' :: s)) = some ([(name, j)], rest) := by
  simp only [readMembers, skipSpace_cons (show isSpace '"' = false by decide), readChars_quote,
    skipSpace_cons (show isSpace ':' = false by decide), h,
    skipSpace_cons (show isSpace '\x7d' = false by decide), String.ofList_toList]

theorem readMembers_of_comma (name : String)
    (h : readValue fuel depth s = some (j, ',' :: rest)) :
    readMembers (fuel + 1) depth
        ('"' :: (name.toList.flatMap escapeChar ++ '"' :: ':' :: s)) =
      (readMembers fuel depth rest).map fun (ms, r) => ((name, j) :: ms, r) := by
  simp only [readMembers, skipSpace_cons (show isSpace '"' = false by decide), readChars_quote,
    skipSpace_cons (show isSpace ':' = false by decide), h,
    skipSpace_cons (show isSpace ',' = false by decide), String.ofList_toList]

end Steps

theorem readItems_itemsText {items : List Json} (h : ∀ j ∈ items, ReadsBack depth j)
    (hne : items ≠ []) (hfuel : 2 * (itemsText items).toList.length + 1 ≤ fuel)
    (rest : List Char) :
    readItems fuel depth ((itemsText items).toList ++ ']' :: rest) = some (items, rest) := by
  induction items generalizing fuel with
  | nil => exact absurd rfl hne
  | cons j items ih =>
    obtain ⟨fuel, rfl⟩ := Nat.exists_eq_add_one.mpr (Nat.zero_lt_of_lt hfuel)
    have hj := h j List.mem_cons_self
    cases items with
    | nil =>
      rw [itemsText] at hfuel ⊢
      exact readItems_of_end (hj fuel _ (by omega) (endsNumber_cons (by decide) _))
    | cons j' items =>
      rw [toList_itemsText_cons, List.length_append, List.length_cons] at hfuel
      have hrest := ih (fun k hk => h k (List.mem_cons_of_mem j hk)) (List.cons_ne_nil _ _)
        (show 2 * (itemsText (j' :: items)).toList.length + 1 ≤ fuel by omega)
      rw [toList_itemsText_cons, List.append_assoc, List.cons_append,
        readItems_of_comma (hj fuel _ (by omega) (endsNumber_cons (by decide) _)), hrest]
      rfl

theorem readMembers_membersText {members : List (String × Json)}
    (h : ∀ m ∈ members, ReadsBack depth m.2) (hne : members ≠ [])
    (hfuel : 2 * (membersText members).toList.length + 1 ≤ fuel) (rest : List Char) :
    readMembers fuel depth ((membersText members).toList ++ '\x7d' :: rest) =
      some (members, rest) := by
  induction members generalizing fuel with
  | nil => exact absurd rfl hne
  | cons m members ih =>
    obtain ⟨name, j⟩ := m
    obtain ⟨fuel, rfl⟩ := Nat.exists_eq_add_one.mpr (Nat.zero_lt_of_lt hfuel)
    have hj : ReadsBack depth j := h (name, j) List.mem_cons_self
    cases members with
    | nil =>
      rw [toList_membersText_singleton] at hfuel ⊢
      simp only [List.length_cons, List.length_append] at hfuel
      simp only [List.cons_append, List.append_assoc]
      exact readMembers_of_end name (hj fuel _ (by omega) (endsNumber_cons (by decide) _))
    | cons m members =>
      rw [toList_membersText_cons] at hfuel ⊢
      simp only [List.length_cons, List.length_append] at hfuel
      have hrest := ih (fun k hk => h k (List.mem_cons_of_mem _ hk)) (List.cons_ne_nil _ _)
        (show 2 * (membersText (m :: members)).toList.length + 1 ≤ fuel by omega)
      simp only [List.cons_append, List.append_assoc]
      rw [readMembers_of_comma name (hj fuel _ (by omega) (endsNumber_cons (by decide) _)), hrest]
      rfl

theorem Fits.toList_toText_eq_cons (h : j.Fits depth) :
    ∃ c s, j.toText.toList = c :: s ∧ isSpace c = false ∧ c ≠ ']' := by
  cases h with
  | null => exact ⟨'n', _, rfl, by decide⟩
  | bool b => cases b <;> exact ⟨_, _, rfl, by decide⟩
  | @integer _ n h =>
    obtain ⟨c, s, heq, hc⟩ := intText_eq_cons n
    refine ⟨c, s, ?_, isSpace_of_digit_or_minus hc, ?_⟩
    · rw [toList_toText_integer, heq]
    · rintro rfl
      exact absurd hc (by decide)
  | string s =>
    rw [toList_toText_string]
    exact ⟨'"', _, rfl, by decide⟩
  | array h =>
    rw [toList_toText_array]
    exact ⟨'[', _, rfl, by decide⟩
  | object h =>
    rw [toList_toText_object]
    exact ⟨'\x7b', _, rfl, by decide⟩

theorem Fits.exists_fuel (h : j.Fits depth) (hfuel : 2 * j.toText.toList.length ≤ fuel) :
    ∃ left, fuel = left + 1 := by
  obtain ⟨c, s, heq, -⟩ := h.toList_toText_eq_cons
  rw [heq, List.length_cons] at hfuel
  exact Nat.exists_eq_add_one.mpr (by omega)

theorem itemsText_eq_cons {items : List Json} (h : ∀ j ∈ items, j.Fits depth) (hne : items ≠ []) :
    ∃ c s, (itemsText items).toList = c :: s ∧ isSpace c = false ∧ c ≠ ']' := by
  cases items with
  | nil => exact absurd rfl hne
  | cons j items =>
    obtain ⟨c, s, heq, hc⟩ := (h j List.mem_cons_self).toList_toText_eq_cons
    cases items with
    | nil => exact ⟨c, s, heq, hc⟩
    | cons j' items =>
      rw [toList_itemsText_cons, heq]
      exact ⟨c, _, rfl, hc⟩

theorem membersText_eq_cons {members : List (String × Json)} (hne : members ≠ []) :
    ∃ s, (membersText members).toList = '"' :: s := by
  cases members with
  | nil => exact absurd rfl hne
  | cons m members =>
    obtain ⟨name, j⟩ := m
    cases members with
    | nil => exact ⟨_, toList_membersText_singleton name j⟩
    | cons m members => exact ⟨_, toList_membersText_cons name members j m⟩

theorem readsBack_array {items : List Json} (h : ∀ j ∈ items, j.Fits depth)
    (hitems : ∀ j ∈ items, ReadsBack depth j) : ReadsBack (depth + 1) (.array items) := by
  intro fuel rest hfuel _
  obtain ⟨fuel, rfl⟩ := (Fits.array h).exists_fuel hfuel
  rw [toList_toText_array] at hfuel ⊢
  by_cases hne : items = []
  · rw [hne]
    rfl
  · obtain ⟨c, s, heq, hspace, hc⟩ := itemsText_eq_cons h hne
    simp only [List.length_cons, List.length_append] at hfuel
    have hread := readItems_itemsText hitems hne
      (show 2 * (itemsText items).toList.length + 1 ≤ fuel by omega) rest
    simp only [List.cons_append, List.append_assoc, List.nil_append]
    rw [heq, List.cons_append] at hread ⊢
    rw [readValue_array fuel depth _ hspace hc, hread]
    rfl

theorem readsBack_object {members : List (String × Json)} (h : ∀ m ∈ members, m.2.Fits depth)
    (hmembers : ∀ m ∈ members, ReadsBack depth m.2) :
    ReadsBack (depth + 1) (.object members) := by
  intro fuel rest hfuel _
  obtain ⟨fuel, rfl⟩ := (Fits.object h).exists_fuel hfuel
  rw [toList_toText_object] at hfuel ⊢
  by_cases hne : members = []
  · rw [hne]
    rfl
  · obtain ⟨s, heq⟩ := membersText_eq_cons hne
    simp only [List.length_cons, List.length_append] at hfuel
    have hread := readMembers_membersText hmembers hne
      (show 2 * (membersText members).toList.length + 1 ≤ fuel by omega) rest
    simp only [List.cons_append, List.append_assoc, List.nil_append]
    rw [heq, List.cons_append] at hread ⊢
    rw [readValue_object, hread]
    rfl

theorem Fits.readsBack (h : j.Fits depth) : ReadsBack depth j := by
  induction h with
  | @null depth =>
    intro fuel rest hfuel _
    have hfits : Fits depth .null := .null
    obtain ⟨fuel, rfl⟩ := hfits.exists_fuel hfuel
    rfl
  | @bool depth b =>
    intro fuel rest hfuel _
    have hfits : Fits depth (.bool b) := .bool b
    obtain ⟨fuel, rfl⟩ := hfits.exists_fuel hfuel
    cases b <;> rfl
  | @integer depth n h =>
    intro fuel rest hfuel hrest
    have hfits : Fits depth (.integer n) := .integer h
    obtain ⟨fuel, rfl⟩ := hfits.exists_fuel hfuel
    obtain ⟨c, s, heq, hc⟩ := intText_eq_cons n
    rw [toList_toText_integer, ← readNumber_intText h hrest, heq]
    exact readValue_number fuel depth _ hc
  | @string depth s =>
    intro fuel rest hfuel _
    have hfits : Fits depth (.string s) := .string s
    obtain ⟨fuel, rfl⟩ := hfits.exists_fuel hfuel
    rw [toList_toText_string]
    simp only [List.cons_append, List.append_assoc, List.nil_append]
    rw [readValue_string, readChars_quote, Option.map_some]
    simp only [String.ofList_toList]
  | array h ih => exact readsBack_array h ih
  | object h ih => exact readsBack_object h ih

/-- **A value reads back as it was written.** -/
theorem ofString?_toText (h : j.Fits maxDepth) : ofString? j.toText = some j := by
  have hread := h.readsBack (2 * j.toText.toList.length + 2) [] (Nat.le_add_right _ _)
    fun c hc => nomatch hc
  rw [List.append_nil] at hread
  rw [ofString?, ofText?, hread]
  rfl

end RunScheduler.Json
