import RunScheduler.Proofs.Instant.Compact
import RunScheduler.Recurrence.Rule.Reader

/-!
# The texts of recurrence rules

A rule as rules are read has its numbers in their ranges, ascending lists and one end at most
(`Canonical`). Its texts (`Renders`) have the rule in one line of parts and its start, if any, in a
line before or after it. The parts are true of the rule (`Part.Holds`) and stand in any order, and so
do the members of their lists. Names and keys are spelled in either case, numbers may have zeros in
front, and spaces may stand around keys, values, parts, members of lists and lines.

Every canonical rule with dates of whole seconds has a text (`exists_renders`).
-/

namespace RunScheduler.Rule

open Text
open Instant (DateText)

/-! ### Canonical rules -/

/-- In ascending order, each once, and between two bounds. -/
structure Ascending (least greatest : Nat) (l : List Nat) : Prop where
  pairwise : l.Pairwise (· < ·)
  bounds : ∀ n ∈ l, least ≤ n ∧ n ≤ greatest

/-- A rule with numbers in their ranges, ascending lists, one end at most, and dates of a kind. -/
structure Canonical (IsDate : Instant → Prop) (r : Rule) : Prop where
  interval : 1 ≤ r.interval ∧ r.interval ≤ maxInterval
  count : ∀ n ∈ r.count, 1 ≤ n ∧ n ≤ 4294967295
  until? : ∀ t ∈ r.until?, IsDate t
  oneEnd : r.count = none ∨ r.until? = none
  byDay : r.byDay.Pairwise fun v w => v.index < w.index
  byMonthDay : Ascending 1 31 r.byMonthDay
  byHour : Ascending 0 23 r.byHour
  byMinute : Ascending 0 59 r.byMinute
  start? : ∀ t ∈ r.start?, IsDate t

/-! ### Names and numbers -/

/-- The letters of a name, each in either case. -/
def Spells (name : String) (s : List Char) : Prop :=
  upper s = name.toList

instance (name : String) (s : List Char) : Decidable (Spells name s) :=
  inferInstanceAs (Decidable (upper s = name.toList))

/-- A name that a table has for a value. -/
def Named {α : Type} (table : List (String × α)) (x : α) (s : List Char) : Prop :=
  ∃ name, (name, x) ∈ table ∧ Spells name s

/-- The digits of a number, with or without zeros in front. -/
def Numeral (n : Nat) (s : List Char) : Prop :=
  ∃ width, s = padded width n

/-! ### Parts -/

/-- What one part of a text says. -/
inductive Part
  | frequency (f : Frequency)
  | interval (n : Nat) (hpos : 0 < n)
  | count (n : Nat)
  | last (t : Instant)
  | byDay (l : List Weekday)
  | byMonthDay (l : List Nat)
  | byHour (l : List Nat)
  | byMinute (l : List Nat)
  | weekStart

namespace Part

def key : Part → String
  | .frequency _ => "FREQ"
  | .interval _ _ => "INTERVAL"
  | .count _ => "COUNT"
  | .last _ => "UNTIL"
  | .byDay _ => "BYDAY"
  | .byMonthDay _ => "BYMONTHDAY"
  | .byHour _ => "BYHOUR"
  | .byMinute _ => "BYMINUTE"
  | .weekStart => "WKST"

/-- The texts of a part's value. -/
def Value : Part → List Char → Prop
  | .frequency f => Named frequencies f
  | .interval n _ | .count n => Numeral n
  | .last t => DateText t
  | .byDay l => Listed ',' (Named weekdayCodes) l
  | .byMonthDay l | .byHour l | .byMinute l => Listed ',' Numeral l
  | .weekStart => Spells "MO"

/-- The texts of a part. -/
def Written (p : Part) (s : List Char) : Prop :=
  ∃ key value, Spells p.key key ∧ p.Value value ∧ Joined '=' [key, value] s

/-- Whether a part is true of a rule. A list has the same members, in any order and with
repetitions. -/
def Holds (r : Rule) : Part → Prop
  | .frequency f => f = r.frequency
  | .interval n _ => n = r.interval
  | .count n => r.count = some n
  | .last t => r.until? = some t
  | .byDay l => ∀ w, w ∈ l ↔ w ∈ r.byDay
  | .byMonthDay l => ∀ n, n ∈ l ↔ n ∈ r.byMonthDay
  | .byHour l => ∀ n, n ∈ l ↔ n ∈ r.byHour
  | .byMinute l => ∀ n, n ∈ l ↔ n ∈ r.byMinute
  | .weekStart => True

end Part

/-- Parts that are true of a rule and tell all of it, in any order. An interval of one may be left
out, and what the rule does not have is left out. -/
structure PartsOf (r : Rule) (parts : List Part) : Prop where
  holds : ∀ p ∈ parts, p.Holds r
  frequency : "FREQ" ∈ parts.map Part.key
  interval : "INTERVAL" ∈ parts.map Part.key ∨ r.interval = 1
  count : "COUNT" ∈ parts.map Part.key ∨ r.count = none
  last : "UNTIL" ∈ parts.map Part.key ∨ r.until? = none
  byDay : "BYDAY" ∈ parts.map Part.key ∨ r.byDay = []
  byMonthDay : "BYMONTHDAY" ∈ parts.map Part.key ∨ r.byMonthDay = []
  byHour : "BYHOUR" ∈ parts.map Part.key ∨ r.byHour = []
  byMinute : "BYMINUTE" ∈ parts.map Part.key ∨ r.byMinute = []

/-! ### Lines -/

/-- The texts of a rule without its start. -/
def Body (r : Rule) (s : List Char) : Prop :=
  ∃ parts, r.PartsOf parts ∧ Listed ';' Part.Written parts s

/-- The lines of a rule without its start. -/
inductive RuleLine (r : Rule) : List Char → Prop
  | bare {s : List Char} (hs : r.Body s) : RuleLine r s
  | marked {a s : List Char} (ha : Spaces a) (hs : r.Body s) :
      RuleLine r ("RRULE:".toList ++ (a ++ s))

/-- The lines of a start. -/
inductive StartLine (t : Instant) : List Char → Prop
  | bare {a s : List Char} (ha : Spaces a) (hs : DateText t s) :
      StartLine t ("DTSTART".toList ++ ':' :: (a ++ s))
  | zoned {zone a s : List Char} (hzone : Spells "UTC" zone) (ha : Spaces a) (hs : DateText t s) :
      StartLine t ("DTSTART".toList ++ (";TZID=".toList ++ zone ++ ':' :: (a ++ s)))

/-- The lines of a rule: a start stands before or after the rest. -/
inductive TextLines (r : Rule) : List (List Char) → Prop
  | alone {line : List Char} (hnone : r.start? = none) (hline : RuleLine r line) :
      TextLines r [line]
  | startFirst {t : Instant} {line start : List Char} (hstart : r.start? = some t)
      (hfirst : StartLine t start) (hline : RuleLine r line) : TextLines r [start, line]
  | startLast {t : Instant} {line start : List Char} (hstart : r.start? = some t)
      (hline : RuleLine r line) (hlast : StartLine t start) : TextLines r [line, start]

/-- The texts of a rule. -/
def Renders (r : Rule) (text : List Char) : Prop :=
  ∃ lines a s b, TextLines r lines ∧ Joined '\n' lines s ∧ Spaces a ∧ Spaces b ∧ text = a ++ s ++ b

/-! ### Plain texts -/

theorem isAlphanum_of_toUpper {c : Char} (h : c.toUpper.isAlphanum = true) :
    c.isAlphanum = true := by
  unfold Char.toUpper at h
  split at h
  · rename_i hlower
    have hletter : c.isLower = true := by
      show (decide ('a'.val ≤ c.val) && decide (c.val ≤ 'z'.val)) = true
      rw [decide_eq_true hlower.1, decide_eq_true hlower.2]
      rfl
    show ((c.isUpper || c.isLower) || c.isDigit) = true
    rw [hletter, Bool.or_true, Bool.true_or]
  · exact h

theorem Spells.word {name : String} {s : List Char} (h : Spells name s)
    (hname : Word name.toList) : Word s where
  ne_nil := by
    rintro rfl
    exact hname.ne_nil h.symm
  isAlphanum c hc := by
    have hupper : c.toUpper ∈ upper s := List.mem_map_of_mem hc
    rw [h] at hupper
    exact isAlphanum_of_toUpper (hname.isAlphanum _ hupper)

theorem Named.word {α : Type} {table : List (String × α)} {x : α} {s : List Char}
    (h : Named table x s) (htable : ∀ entry ∈ table, Word entry.1.toList) : Word s := by
  obtain ⟨name, hmem, hspells⟩ := h
  exact hspells.word (htable _ hmem)

theorem Numeral.word {n : Nat} {s : List Char} (h : Numeral n s) : Word s := by
  obtain ⟨width, rfl⟩ := h
  refine ⟨padded_ne_nil width n, fun c hc => ?_⟩
  rw [Char.isAlphanum, isDigit_of_mem_padded hc, Bool.or_true]

theorem word_of_mem_frequencies : ∀ entry ∈ frequencies, Word entry.1.toList := by
  simp only [frequencies, List.forall_mem_cons, List.not_mem_nil, false_imp_iff, implies_true,
    and_true]
  refine ⟨?_, ?_, ?_, ?_, ?_⟩ <;> exact word_of_all rfl

theorem word_of_mem_weekdayCodes : ∀ entry ∈ weekdayCodes, Word entry.1.toList := by
  simp only [weekdayCodes, List.forall_mem_cons, List.not_mem_nil, false_imp_iff, implies_true,
    and_true]
  refine ⟨?_, ?_, ?_, ?_, ?_, ?_, ?_⟩ <;> exact word_of_all rfl

variable {p : Part} {s : List Char}

theorem Part.word_key (p : Part) : Word p.key.toList := by
  cases p <;> (simp only [key]; exact word_of_all rfl)

theorem Part.Value.plain (h : p.Value s) : Plain [','] s := by
  cases p with
  | frequency f => exact (Named.word h word_of_mem_frequencies).plain
  | interval n | count n => exact (Numeral.word h).plain
  | last t => exact (DateText.word h).plain
  | byDay l => exact Listed.plain h fun _ _ _ hday => (hday.word word_of_mem_weekdayCodes).plain
  | byMonthDay l | byHour l | byMinute l => exact Listed.plain h fun _ _ _ hn => hn.word.plain
  | weekStart => exact (Spells.word h (word_of_all rfl)).plain

theorem Part.Written.plain (h : p.Written s) : Plain ['=', ','] s := by
  obtain ⟨key, value, hkey, hvalue, hjoined⟩ := h
  refine hjoined.plain fun piece hpiece => ?_
  rcases List.mem_pair.mp hpiece with rfl | rfl
  · exact (hkey.word p.word_key).plain
  · exact hvalue.plain

theorem Body.plain {r : Rule} (h : r.Body s) : Plain [';', '=', ','] s := by
  obtain ⟨parts, -, hlisted⟩ := h
  exact hlisted.plain fun _ _ _ hp => hp.plain

/-- The marks in the lines of a text. -/
def lineMarks : List Char :=
  [':', ';', '=', ',']

theorem chars_of_colon {a : List Char} (ha : Spaces a) :
    ∀ c ∈ ':' :: a, c.isAlphanum = true ∨ isSpace c = true ∨ c ∈ lineMarks :=
  List.forall_mem_cons.mpr
    ⟨Or.inr (Or.inr List.mem_cons_self), fun c hc => Or.inr (Or.inl (ha c hc))⟩

theorem RuleLine.plain {r : Rule} (h : RuleLine r s) : Plain lineMarks s := by
  have hmarks : [';', '=', ','] ⊆ lineMarks := List.subset_cons_self _ _
  cases h with
  | bare hs => exact hs.plain.mono hmarks
  | marked ha hs =>
    have hword : Word "RRULE".toList := word_of_all rfl
    have happend := hword.plain.append (hs.plain.mono hmarks) (chars_of_colon ha)
    rwa [List.append_assoc] at happend

theorem StartLine.plain {t : Instant} (h : StartLine t s) : Plain lineMarks s := by
  have hword : Word "DTSTART".toList := word_of_all rfl
  cases h with
  | bare ha hs =>
    have happend := hword.plain.append hs.word.plain (chars_of_colon ha)
    rwa [List.append_assoc] at happend
  | @zoned zone a s hzone ha hs =>
    have hzoneWord : Word zone := hzone.word (word_of_all rfl)
    have hmid : ∀ c ∈ ";TZID=".toList ++ zone ++ ':' :: a,
        c.isAlphanum = true ∨ isSpace c = true ∨ c ∈ lineMarks := by
      have hzoned : ";TZID=".toList.all (fun c => c.isAlphanum || lineMarks.contains c) = true := by
        decide
      refine List.forall_mem_append.mpr ⟨List.forall_mem_append.mpr ⟨fun c hc => ?_, ?_⟩,
        chars_of_colon ha⟩
      · have hchar := List.all_eq_true.mp hzoned c hc
        rw [Bool.or_eq_true, List.contains_iff_mem] at hchar
        exact hchar.imp_right Or.inr
      · exact fun c hc => Or.inl (hzoneWord.isAlphanum c hc)
    have happend := hword.plain.append hs.word.plain hmid
    simpa using happend

theorem TextLines.plain {r : Rule} {lines : List (List Char)} (h : TextLines r lines) :
    ∀ line ∈ lines, Plain lineMarks line := by
  cases h with
  | alone _ hline => exact List.forall_mem_singleton.mpr hline.plain
  | startFirst _ hfirst hline =>
    exact List.forall_mem_cons.mpr ⟨hfirst.plain, List.forall_mem_singleton.mpr hline.plain⟩
  | startLast _ hline hlast =>
    exact List.forall_mem_cons.mpr ⟨hline.plain, List.forall_mem_singleton.mpr hlast.plain⟩

/-! ### Every rule has a text -/

/-- The part of a list, if it has members. -/
def listPart {α : Type} (part : List α → Part) (l : List α) : List Part :=
  if l = [] then [] else [part l]

/-- The parts that a rule has, each once. -/
def parts (r : Rule) : List Part :=
  .frequency r.frequency :: .interval r.interval r.interval_pos :: (r.count.toList.map .count ++
    (r.until?.toList.map .last ++ (listPart .byDay r.byDay ++ (listPart .byMonthDay r.byMonthDay ++
      (listPart .byHour r.byHour ++ listPart .byMinute r.byMinute)))))

theorem mem_listPart {α : Type} {part : List α → Part} {l : List α} :
    p ∈ listPart part l ↔ l ≠ [] ∧ p = part l := by
  unfold listPart
  split <;> simp_all

theorem mem_parts {r : Rule} : p ∈ r.parts ↔
    p = .frequency r.frequency ∨ p = .interval r.interval r.interval_pos ∨
    (∃ n, r.count = some n ∧ .count n = p) ∨ (∃ t, r.until? = some t ∧ .last t = p) ∨
    (r.byDay ≠ [] ∧ p = .byDay r.byDay) ∨ (r.byMonthDay ≠ [] ∧ p = .byMonthDay r.byMonthDay) ∨
    (r.byHour ≠ [] ∧ p = .byHour r.byHour) ∨ (r.byMinute ≠ [] ∧ p = .byMinute r.byMinute) := by
  simp only [parts, List.mem_cons, List.mem_append, List.mem_map, Option.mem_toList, mem_listPart]

theorem partsOf_parts (r : Rule) : r.PartsOf r.parts where
  holds p hp := by
    rcases mem_parts.mp hp with rfl | rfl | ⟨n, hn, rfl⟩ | ⟨t, ht, rfl⟩ | ⟨-, rfl⟩ | ⟨-, rfl⟩ |
      ⟨-, rfl⟩ | ⟨-, rfl⟩
    · exact rfl
    · exact rfl
    · exact hn
    · exact ht
    all_goals exact fun _ => Iff.rfl
  frequency := List.mem_map.mpr ⟨_, mem_parts.mpr (Or.inl rfl), rfl⟩
  interval := Or.inl (List.mem_map.mpr ⟨_, mem_parts.mpr (Or.inr (Or.inl rfl)), rfl⟩)
  count := by
    cases hcount : r.count with
    | none => exact Or.inr rfl
    | some n => exact Or.inl (List.mem_map.mpr ⟨.count n, mem_parts.mpr (by simp [hcount]), rfl⟩)
  last := by
    cases hlast : r.until? with
    | none => exact Or.inr rfl
    | some t => exact Or.inl (List.mem_map.mpr ⟨.last t, mem_parts.mpr (by simp [hlast]), rfl⟩)
  byDay := or_iff_not_imp_right.mpr fun hne =>
    List.mem_map.mpr ⟨.byDay r.byDay, mem_parts.mpr (by simp [hne]), rfl⟩
  byMonthDay := or_iff_not_imp_right.mpr fun hne =>
    List.mem_map.mpr ⟨.byMonthDay r.byMonthDay, mem_parts.mpr (by simp [hne]), rfl⟩
  byHour := or_iff_not_imp_right.mpr fun hne =>
    List.mem_map.mpr ⟨.byHour r.byHour, mem_parts.mpr (by simp [hne]), rfl⟩
  byMinute := or_iff_not_imp_right.mpr fun hne =>
    List.mem_map.mpr ⟨.byMinute r.byMinute, mem_parts.mpr (by simp [hne]), rfl⟩

theorem exists_named {α : Type} {table : List (String × α)} {x : α}
    (h : ∃ entry ∈ table, entry.2 = x ∧ upper entry.1.toList = entry.1.toList) :
    ∃ s, Named table x s := by
  obtain ⟨⟨name, _⟩, hmem, rfl, hupper⟩ := h
  exact ⟨_, name, hmem, hupper⟩

theorem exists_named_frequencies (f : Frequency) : ∃ s, Named frequencies f s :=
  exists_named (by cases f <;> decide)

theorem exists_named_weekdayCodes (w : Weekday) : ∃ s, Named weekdayCodes w s :=
  exists_named (by cases w <;> decide)

theorem exists_numeral (n : Nat) : ∃ s, Numeral n s :=
  ⟨_, 0, rfl⟩

theorem Part.spells_key (p : Part) : Spells p.key p.key.toList := by
  cases p <;> (simp only [key, Spells]; decide)

theorem Part.exists_written {r : Rule} (hp : p ∈ r.parts) : ∃ s, p.Written s := by
  have hvalue : ∃ value, p.Value value := by
    rcases mem_parts.mp hp with rfl | rfl | ⟨n, -, rfl⟩ | ⟨t, -, rfl⟩ | ⟨hne, rfl⟩ | ⟨hne, rfl⟩ |
      ⟨hne, rfl⟩ | ⟨hne, rfl⟩
    · exact exists_named_frequencies _
    · exact exists_numeral _
    · exact exists_numeral n
    · exact ⟨_, DateText.utc⟩
    · exact exists_listed ',' hne fun w _ => exists_named_weekdayCodes w
    all_goals exact exists_listed ',' hne fun n _ => exists_numeral n
  obtain ⟨value, hvalue⟩ := hvalue
  obtain ⟨s, hs⟩ := exists_joined '=' (List.cons_ne_nil p.key.toList [value])
  exact ⟨s, p.key.toList, value, p.spells_key, hvalue, hs⟩

theorem exists_body (r : Rule) : ∃ s, r.Body s := by
  obtain ⟨s, hs⟩ := exists_listed ';' (List.cons_ne_nil _ _) fun p hp =>
    Part.exists_written (r := r) hp
  exact ⟨s, r.parts, r.partsOf_parts, hs⟩

theorem exists_textLines (r : Rule) : ∃ lines, TextLines r lines ∧ lines ≠ [] := by
  obtain ⟨s, hs⟩ := r.exists_body
  cases hstart : r.start? with
  | none => exact ⟨[s], .alone hstart (.bare hs), List.cons_ne_nil _ _⟩
  | some t => exact ⟨_, .startFirst hstart (.bare .nil .utc) (.bare hs), List.cons_ne_nil _ _⟩

theorem exists_renders (r : Rule) : ∃ text, r.Renders text := by
  obtain ⟨lines, hlines, hne⟩ := r.exists_textLines
  obtain ⟨s, hs⟩ := exists_joined '\n' hne
  exact ⟨_, lines, [], s, [], hlines, hs, .nil, .nil, rfl⟩

end RunScheduler.Rule
