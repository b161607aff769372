import RunScheduler.Proofs.Instant.Reading
import RunScheduler.Proofs.Text.Joined

/-!
# Instants in the form of recurrence rules

A date and a time of day in a row of digits, `20240101T090000`, with or without a `Z` behind it, or
the date alone for the start of its day. An instant of whole seconds in a year of four digits is
read back from each of its texts (`ofCompact?_of_dateText`). There are no fractions in this form, so
whatever is read is a whole second or the start of a leap second (`isSecond_of_ofCompact?`).
-/

namespace RunScheduler.Instant

open Text

variable {t : Instant} {s rest : List Char} {parts : Parts}

/-- A whole second in a year that four digits can be written for. -/
structure IsWhole (t : Instant) : Prop where
  nano : t.nano = 0
  year_nonneg : 0 ≤ t.year
  year_le : t.year ≤ 9999

/-- The date in digits. -/
def dayDigits (t : Instant) : List Char :=
  padded 4 t.year.toNat ++ (padded 2 t.month ++ padded 2 t.dayOfMonth)

/-- The time of day in digits. -/
def clockDigits (t : Instant) : List Char :=
  padded 2 t.hour ++ (padded 2 t.minute ++ padded 2 t.secondOfMinute)

/-- The texts of an instant. -/
inductive DateText (t : Instant) : List Char → Prop
  | time : DateText t (t.dayDigits ++ 'T' :: t.clockDigits)
  | utc : DateText t (t.dayDigits ++ 'T' :: t.clockDigits ++ ['Z'])
  | day (hhour : t.hour = 0) (hminute : t.minute = 0) (hsecond : t.secondOfMinute = 0) :
      DateText t t.dayDigits

theorem isDigit_of_mem_dayDigits {c : Char} (h : c ∈ t.dayDigits) : c.isDigit = true := by
  simp only [dayDigits, List.mem_append] at h
  rcases h with h | h | h <;> exact isDigit_of_mem_padded h

theorem isDigit_of_mem_clockDigits {c : Char} (h : c ∈ t.clockDigits) : c.isDigit = true := by
  simp only [clockDigits, List.mem_append] at h
  rcases h with h | h | h <;> exact isDigit_of_mem_padded h

theorem dayDigits_ne_nil : t.dayDigits ≠ [] :=
  List.append_ne_nil_of_left_ne_nil (padded_ne_nil _ _) _

theorem clockDigits_ne_nil : t.clockDigits ≠ [] :=
  List.append_ne_nil_of_left_ne_nil (padded_ne_nil _ _) _

theorem DateText.word (h : DateText t s) : Word s := by
  have hdigit {c : Char} (hc : c.isDigit = true) : c.isAlphanum = true := by
    rw [Char.isAlphanum, hc, Bool.or_true]
  have hday : ∀ c ∈ t.dayDigits, c.isAlphanum = true :=
    fun c hc => hdigit (isDigit_of_mem_dayDigits hc)
  have htime : ∀ c ∈ t.dayDigits ++ 'T' :: t.clockDigits, c.isAlphanum = true := by
    refine List.forall_mem_append.mpr ⟨hday, List.forall_mem_cons.mpr ⟨rfl, fun c hc => ?_⟩⟩
    exact hdigit (isDigit_of_mem_clockDigits hc)
  cases h with
  | time => exact ⟨List.append_ne_nil_of_left_ne_nil dayDigits_ne_nil _, htime⟩
  | utc =>
    refine ⟨List.append_ne_nil_of_right_ne_nil _ (List.cons_ne_nil _ _), ?_⟩
    exact List.forall_mem_append.mpr ⟨htime, List.forall_mem_singleton.mpr rfl⟩
  | day => exact ⟨dayDigits_ne_nil, hday⟩

/-! ### Reading -/

/-- The parts with the date of an instant. -/
def Parts.withDay (parts : Parts) (t : Instant) : Parts :=
  { parts with year := t.year, month := t.month, day := t.dayOfMonth }

theorem readItems_dayDigits {items : List Item} (h : t.IsWhole) :
    readItems parts (t.dayDigits ++ rest) (.year :: .month :: .day :: items) =
      readItems (parts.withDay t) rest items := by
  have hyear (s : List Char) :
      readYear (trimStart (padded 4 t.year.toNat ++ s)) = some (t.year, s) := by
    have hlt : t.year.toNat < 10 ^ 4 := by
      have := h.year_le
      omega
    rw [trimStart_padded, readYear_of_digit fun _ => isDigit_of_head?_padded,
      takeNumber_padded (by decide) hlt]
    show some ((t.year.toNat : Int), s) = some (t.year, s)
    rw [Int.toNat_of_nonneg h.year_nonneg]
  have hmonth : t.month < 100 := Nat.lt_of_le_of_lt t.month_bounds.2 (by decide)
  have hday : t.dayOfMonth < 100 := Nat.lt_of_le_of_lt t.dayOfMonth_le_31 (by decide)
  simp only [dayDigits, List.append_assoc, readItems, readItem, hyear, takeNumber_two hmonth,
    takeNumber_two hday, Option.map_some, Parts.withDay]

theorem readItems_clockDigits :
    readItems parts (t.clockDigits ++ rest) [.hour, .minute, .second] =
      some ({ parts with hour := t.hour, minute := t.minute, second := t.secondOfMinute }, rest) := by
  have hhour : t.hour < 100 := Nat.lt_trans t.hour_lt (by decide)
  have hminute : t.minute < 100 := Nat.lt_trans t.minute_lt (by decide)
  have hsecond : t.secondOfMinute < 100 := Nat.lt_trans t.secondOfMinute_lt (by decide)
  simp only [clockDigits, List.append_assoc, readItems, readItem, takeNumber_two hhour,
    takeNumber_two hminute, takeNumber_two hsecond, Option.map_some]

theorem IsWhole.toInstant? (h : t.IsWhole) :
    Parts.toInstant? ⟨t.year, t.month, t.dayOfMonth, t.hour, t.minute, t.secondOfMinute, 0⟩ 0 =
      some t := by
  have hparts := toInstant?_parts t
  rwa [writtenSecond, h.nano, Nat.zero_div, Nat.add_zero, Nat.zero_mod] at hparts

theorem readAll_time (h : t.IsWhole) :
    readAll [.year, .month, .day, .char 'T', .hour, .minute, .second]
      (t.dayDigits ++ 'T' :: t.clockDigits) = some t := by
  have hitems : readItems {} (t.dayDigits ++ 'T' :: t.clockDigits)
      [.year, .month, .day, .char 'T', .hour, .minute, .second] =
        some (⟨t.year, t.month, t.dayOfMonth, t.hour, t.minute, t.secondOfMinute, 0⟩, []) := by
    rw [readItems_dayDigits h]
    have hclock : readItems (Parts.withDay {} t) (t.clockDigits ++ []) [.hour, .minute, .second] =
        some (_, []) := readItems_clockDigits
    rw [List.append_nil] at hclock
    exact hclock
  rw [readAll, hitems]
  exact h.toInstant?

theorem readAll_day (h : t.IsWhole) (hhour : t.hour = 0) (hminute : t.minute = 0)
    (hsecond : t.secondOfMinute = 0) : readAll [.year, .month, .day] t.dayDigits = some t := by
  have hitems : readItems {} t.dayDigits [.year, .month, .day] = some (Parts.withDay {} t, []) := by
    have hday : readItems {} (t.dayDigits ++ []) [.year, .month, .day] =
        readItems (Parts.withDay {} t) [] [] := readItems_dayDigits h
    rwa [List.append_nil] at hday
  have hparts := h.toInstant?
  rw [hhour, hminute, hsecond] at hparts
  rw [readAll, hitems]
  exact hparts

theorem readAll_time_of_day (h : t.IsWhole) :
    readAll [.year, .month, .day, .char 'T', .hour, .minute, .second] t.dayDigits = none := by
  have hday : readItems {} (t.dayDigits ++ [])
      [.year, .month, .day, .char 'T', .hour, .minute, .second] =
        readItems (Parts.withDay {} t) [] [.char 'T', .hour, .minute, .second] :=
    readItems_dayDigits h
  rw [List.append_nil] at hday
  rw [readAll, hday]
  rfl

theorem dropFinal_of_digits (front : List Char) {digits : List Char} (hne : digits ≠ [])
    (hdigits : ∀ c ∈ digits, c.isDigit = true) :
    dropFinal 'Z' (front ++ digits) = front ++ digits := by
  refine if_neg fun hlast => ?_
  rw [List.getLast?_append_of_ne_nil _ hne] at hlast
  exact absurd (hdigits 'Z' (List.mem_of_getLast? hlast)) (by decide)

theorem ofCompact?_of_dateText (h : t.IsWhole) (hs : DateText t s) {a b : List Char}
    (ha : Spaces a) (hb : Spaces b) : ofCompact? (a ++ s ++ b) = some t := by
  rw [ofCompact?, trim_around ha hs.word.core hb]
  have htime : dropFinal 'Z' (t.dayDigits ++ 'T' :: t.clockDigits) =
      t.dayDigits ++ 'T' :: t.clockDigits := by
    rw [List.append_cons]
    exact dropFinal_of_digits _ clockDigits_ne_nil fun c => isDigit_of_mem_clockDigits
  cases hs with
  | time =>
    simp only [htime, readAll_time h]
  | utc =>
    have hutc : dropFinal 'Z' (t.dayDigits ++ 'T' :: t.clockDigits ++ ['Z']) =
        t.dayDigits ++ 'T' :: t.clockDigits := by
      rw [dropFinal, if_pos List.getLast?_concat, List.dropLast_concat]
    simp only [hutc, readAll_time h]
  | day hhour hminute hsecond =>
    have hday : dropFinal 'Z' t.dayDigits = t.dayDigits :=
      dropFinal_of_digits [] dayDigits_ne_nil fun c => isDigit_of_mem_dayDigits
    simp only [hday, readAll_time_of_day h, readAll_day h hhour hminute hsecond]

/-! ### What is read -/

/-- A whole second, in any year, or the start of a leap second. -/
def IsSecond (t : Instant) : Prop :=
  t.nano = 0 ∨ t.nano = 1000000000

theorem nano_of_readItem {parts' : Parts} {item : Item} (hitem : item ≠ .fraction)
    (h : readItem parts s item = some (parts', rest)) : parts'.nano = parts.nano := by
  cases item with
  | fraction => exact absurd rfl hitem
  | blank =>
    cases h
    rfl
  | year | month | day | hour | minute | second | char =>
    obtain ⟨_, _, heq⟩ := Option.map_eq_some_iff.mp h
    cases heq
    rfl

theorem nano_of_readItems {parts' : Parts} {items : List Item} (hitems : ∀ i ∈ items, i ≠ .fraction)
    (h : readItems parts s items = some (parts', rest)) : parts'.nano = parts.nano := by
  induction items generalizing parts s with
  | nil =>
    cases h
    rfl
  | cons item items ih =>
    rw [List.forall_mem_cons] at hitems
    rw [readItems] at h
    split at h
    · cases h
    · rename_i hfirst
      rw [ih hitems.2 h, nano_of_readItem hitems.1 hfirst]

theorem nano_of_toInstant? {p : Parts} {offset : Int} (h : p.toInstant? offset = some t) :
    t.nano = p.nano ∨ t.nano = p.nano + 1000000000 := by
  rw [Parts.toInstant?] at h
  split at h
  · cases h
  · dsimp only at h
    split_ifs at h
    · exact Or.inr (of?_eq_some h).2
    · exact Or.inl (of?_eq_some h).2

theorem isSecond_of_readAll {items : List Item} (hitems : ∀ i ∈ items, i ≠ .fraction)
    (h : readAll items s = some t) : t.IsSecond := by
  rw [readAll] at h
  split at h
  · rename_i parts hparts
    have hnano : parts.nano = 0 := nano_of_readItems hitems hparts
    have hread := nano_of_toInstant? h
    rwa [hnano] at hread
  · cases h

theorem isSecond_of_ofCompact? (h : ofCompact? s = some t) : t.IsSecond := by
  rw [ofCompact?] at h
  split at h
  · rename_i u hread
    cases h
    exact isSecond_of_readAll (by simp) hread
  · exact isSecond_of_readAll (by simp) h

end RunScheduler.Instant
