import RunScheduler.Instant.Reader
import RunScheduler.Proofs.Instant
import RunScheduler.Proofs.Instant.Parts

/-!
# Instants read back as they are written

The text in which an instant is stored gives the instant back (`ofString?_toString`): years with
more digits or a sign, a fraction of any width, and leap seconds, which are written as second 60.

Each item of the form takes what was written for it (`readItems_dateText`, `readItems_timeText`),
and the parts that are read make up the instant that had them (`toInstant?_parts`).
-/

namespace RunScheduler.Instant

open Text

variable {t : Instant} {parts : Parts} {rest : List Char}

/-! ### The items -/

theorem readYear_of_digit {s : List Char} (h : ∀ c ∈ s.head?, c.isDigit = true) :
    readYear s = (takeNumber 4 s).map fun (n, r) => ((n : Int), r) := by
  unfold readYear
  split
  · exact absurd (h '-' rfl) (by decide)
  · exact absurd (h '+' rfl) (by decide)
  · rfl

theorem readYear_minus (s : List Char) :
    readYear ('-' :: s) = (takeNumber s.length s).map fun (n, r) => (-(n : Int), r) := rfl

theorem readYear_plus (s : List Char) :
    readYear ('+' :: s) = (takeNumber s.length s).map fun (n, r) => ((n : Int), r) := rfl

theorem readYear_yearText (year : Int) (hrest : ∀ c ∈ rest.head?, Text.isDigit c = false) :
    readYear (yearText year ++ rest) = some (year, rest) := by
  have hsigned : takeNumber (padded 4 year.natAbs ++ rest).length (padded 4 year.natAbs ++ rest) =
      some (year.natAbs, rest) := by
    rw [takeNumber_append (by simp) (padded_ne_nil 4 _)
      (fun c hc => isDigit_of_char (isDigit_of_mem_padded hc)) (by simpa using hrest),
      digitsValue_padded]
  unfold yearText
  split_ifs with hplain hneg
  · rw [readYear_of_digit fun _ => isDigit_of_head?_padded, takeNumber_padded (by decide) (by omega)]
    show some ((year.toNat : Int), rest) = some (year, rest)
    rw [Int.toNat_of_nonneg hplain.1]
  · rw [List.cons_append, readYear_minus, hsigned]
    show some (-(year.natAbs : Int), rest) = some (year, rest)
    rw [Int.ofNat_natAbs_of_nonpos (Int.le_of_lt hneg), Int.neg_neg]
  · rw [List.cons_append, readYear_plus, hsigned]
    show some ((year.natAbs : Int), rest) = some (year, rest)
    rw [Int.natAbs_of_nonneg (Int.not_lt.mp hneg)]

theorem trimStart_yearText (year : Int) : trimStart (yearText year ++ rest) =
    yearText year ++ rest := by
  unfold yearText
  split_ifs
  · exact trimStart_padded 4 _
  · exact trimStart_eq_self fun c hc => by cases hc; decide
  · exact trimStart_eq_self fun c hc => by cases hc; decide

theorem takeNumber_two {n : Nat} (h : n < 100) :
    takeNumber 2 (trimStart (padded 2 n ++ rest)) = some (n, rest) := by
  rw [trimStart_padded, takeNumber_padded (by decide) h]

theorem fractionNanos_padded {width n : Nat} (hwidth : 0 < width) (hle : width ≤ 9)
    (h : n < 10 ^ width) : fractionNanos (padded width n) = n * 10 ^ (9 - width) := by
  have hlength := length_padded hwidth h
  unfold fractionNanos
  rw [List.take_of_length_le (by omega), List.rightpad, hlength, digitsValue_append_zeros,
    digitsValue_padded]

theorem readFraction_padded {width n : Nat} (hwidth : 0 < width) (hle : width ≤ 9)
    (h : n < 10 ^ width) (hrest : ∀ c ∈ rest.head?, Text.isDigit c = false) :
    Instant.readFraction ('.' :: (padded width n ++ rest)) =
      some (n * 10 ^ (9 - width), rest) := by
  have hall : ∀ c ∈ padded width n, Text.isDigit c = true :=
    fun c hc => isDigit_of_char (isDigit_of_mem_padded hc)
  have htaken := takeWhile_append_of_end hall hrest
  have hleft : (padded width n ++ rest).dropWhile Text.isDigit = rest := by
    rw [List.dropWhile_append_of_pos hall]
    exact dropWhile_eq_self_of_head hrest
  have hne : (padded width n).isEmpty = false := by
    rw [List.isEmpty_eq_false_iff]
    exact padded_ne_nil width n
  show (if ((padded width n ++ rest).takeWhile Text.isDigit).isEmpty then none
    else some (fractionNanos ((padded width n ++ rest).takeWhile Text.isDigit),
      (padded width n ++ rest).dropWhile Text.isDigit)) = _
  rw [htaken, hleft, hne, fractionNanos_padded hwidth hle h]
  rfl

theorem readFraction_fractionText {nano : Nat} (h : nano < 1000000000)
    (hrest : ∀ c ∈ rest.head?, Text.isDigit c = false) (hpoint : ∀ c ∈ rest.head?, c ≠ '.') :
    Instant.readFraction (fractionText nano ++ rest) = some (nano, rest) := by
  unfold fractionText
  split_ifs with hzero hmillis hmicros
  · rw [hzero, List.nil_append]
    unfold Instant.readFraction
    split
    · exact absurd rfl (hpoint '.' rfl)
    · rfl
  · rw [List.cons_append, readFraction_padded (by decide) (by decide) (by omega) hrest]
    congr 2
    omega
  · rw [List.cons_append, readFraction_padded (by decide) (by decide) (by omega) hrest]
    congr 2
    omega
  · rw [List.cons_append, readFraction_padded (by decide) (by decide) h hrest]
    congr 2
    omega

/-! ### The forms -/

theorem readItems_dateText :
    readItems parts (t.dateText ++ rest) dateItems =
      some ({ parts with year := t.year, month := t.month, day := t.dayOfMonth }, rest) := by
  have hmonth : t.month < 100 := Nat.lt_of_le_of_lt t.month_bounds.2 (by decide)
  have hday : t.dayOfMonth < 100 := Nat.lt_of_le_of_lt t.dayOfMonth_le_31 (by decide)
  have hminus (s : List Char) : trimStart ('-' :: s) = '-' :: s :=
    trimStart_eq_self fun c hc => by cases hc; decide
  have hyear (s : List Char) : readYear (yearText t.year ++ '-' :: s) = some (t.year, '-' :: s) :=
    readYear_yearText t.year fun c hc => by cases hc; decide
  simp only [dateText, dateItems, List.append_assoc, List.cons_append, readItems, readItem,
    trimStart_yearText, hyear, takeNumber_two hmonth, takeNumber_two hday, hminus, after?,
    Option.map_some, if_true]

/-- The parts with the time of day of an instant. -/
def Parts.withTime (parts : Parts) (t : Instant) : Parts :=
  { parts with
    hour := t.hour
    minute := t.minute
    second := t.writtenSecond
    nano := t.nano % 1000000000 }

theorem readItems_timeText :
    readItems parts (t.timeText ++ ['Z']) timeItems = some (parts.withTime t, ['Z']) := by
  have hhour : t.hour < 100 := Nat.lt_trans t.hour_lt (by decide)
  have hminute : t.minute < 100 := Nat.lt_trans t.minute_lt (by decide)
  have hsecond : t.writtenSecond < 100 := by
    have := t.secondOfMinute_lt
    have := t.nano_lt
    unfold writtenSecond
    omega
  have hcolon (s : List Char) : trimStart (':' :: s) = ':' :: s :=
    trimStart_eq_self fun c hc => by cases hc; decide
  have hfraction : Instant.readFraction (fractionText (t.nano % 1000000000) ++ ['Z']) =
      some (t.nano % 1000000000, ['Z']) :=
    readFraction_fractionText (Nat.mod_lt t.nano (by decide)) (fun c hc => by cases hc; decide)
      fun c hc => by cases hc; decide
  have hend : trimStart ['Z'] = ['Z'] := rfl
  simp only [timeText, timeItems, List.append_assoc, List.cons_append, readItems, readItem,
    takeNumber_two hhour, takeNumber_two hminute, takeNumber_two hsecond, hcolon, hfraction, hend,
    after?, Option.map_some, if_true]
  rfl

theorem toInstant?_parts (t : Instant) :
    Parts.toInstant? ⟨t.year, t.month, t.dayOfMonth, t.hour, t.minute, t.writtenSecond,
      t.nano % 1000000000⟩ 0 = some t := by
  have hhour := t.hour_lt
  have hminute := t.minute_lt
  have hsecond := t.secondOfMinute_lt
  have hplace := t.second_eq_parts
  have hnano := t.nano_lt
  have hleap := t.leap_at_59
  have hofMinute : t.secondOfMinute = t.second % 60 := by
    unfold secondOfMinute secondOfDay
    omega
  unfold Parts.toInstant? writtenSecond
  dsimp only
  rw [dayNumber?_parts]
  dsimp only
  rw [if_pos (by omega), of?_eq_some_iff]
  split_ifs <;> omega

theorem ofString?_toString (t : Instant) : ofString? t.toString = some t := by
  have hdate : readItems {} t.toText dateItems =
      some ({ year := t.year, month := t.month, day := t.dayOfMonth },
        'T' :: (t.timeText ++ ['Z'])) := by
    rw [toText, List.append_assoc, List.cons_append]
    exact readItems_dateText
  unfold ofString? ofText? toString
  rw [String.toList_ofList, hdate]
  dsimp only
  rw [if_pos (Or.inl rfl), readItems_timeText]
  exact toInstant?_parts t

end RunScheduler.Instant
