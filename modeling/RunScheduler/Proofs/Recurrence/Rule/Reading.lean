import Mathlib.Data.List.Sort
import RunScheduler.Proofs.Recurrence.Rule.Rendering

/-!
# Reading the texts of recurrence rules

Each text of a canonical rule is read as the rule. A text between separators has none of them in
it, so that lines, parts and list members are found again (`Listed.exists_pieces`). A part that is
true of the rule puts its value into the draft and keeps everything else (`Draft.add_of_written`),
whence only that a key occurs matters for the last draft, and not where (`foldl_put`). Sorting
undoes the order and the repetitions of lists (`sortedIn_eq`).

Conversely, what is read is canonical, with dates in any year and at leap seconds
(`canonical_of_ofText`).
-/

namespace RunScheduler.Rule

open Text
open Instant (DateText IsWhole)

variable {r : Rule} {p : Part} {s b line : List Char}

/-! ### Values -/

theorem lookup_of_named {α : Type} {table : List (String × α)} {x : α}
    (htable : ∀ entry ∈ table, table.lookup entry.1 = some entry.2) (h : Named table x s) :
    table.lookup (String.ofList (upper s)) = some x := by
  obtain ⟨name, hmem, hspells⟩ := h
  rw [hspells, String.ofList_toList]
  exact htable _ hmem

theorem readFrequency_of_named {f : Frequency} (hb : Spaces b) (h : Named frequencies f s) :
    readFrequency (b ++ s) = .ok f := by
  rw [readFrequency, trim_after hb (h.word word_of_mem_frequencies).core,
    lookup_of_named (by decide) h]

theorem readWeekday_of_named {w : Weekday} (h : Named weekdayCodes w s) :
    readWeekday s = .ok w := by
  rw [readWeekday, lookup_of_named (by decide) h]

theorem readNumber_of_numeral {key : String} {least greatest n : Nat} (hb : Spaces b)
    (h : Numeral n s) (hn : least ≤ n ∧ n ≤ greatest) (hgreatest : greatest ≤ 4294967295) :
    readNumber key least greatest (b ++ s) = .ok n := by
  have hcore := h.word.core
  obtain ⟨width, rfl⟩ := h
  rw [readNumber, trim_after hb hcore, readUpTo_padded (Nat.le_trans hn.2 hgreatest)]
  exact if_pos hn

theorem readDate_of_dateText {t : Instant} (ht : t.IsWhole) (hb : Spaces b) (h : DateText t s) :
    readDate (b ++ s) = .ok t := by
  have hread := Instant.ofCompact?_of_dateText ht h hb .nil
  rw [List.append_nil] at hread
  rw [readDate, hread]

theorem readList_of_listed {α : Type} {item : α → List Char → Prop} {l : List α}
    {read : List Char → Except ReadError α} (hb : Spaces b) (h : Listed ',' item l s)
    (hword : ∀ x ∈ l, ∀ piece, item x piece → Word piece)
    (hread : ∀ x ∈ l, ∀ piece, item x piece → read piece = .ok x) :
    readList read (b ++ s) = .ok l := by
  have hmark : ',' ∉ ([] : List Char) := List.not_mem_nil
  obtain ⟨found, hfound, hitems⟩ := h.exists_pieces (by decide) (by decide) hmark
    (fun x hx piece hpiece => (hword x hx piece hpiece).plain) hb .nil
  rw [List.append_nil] at hfound
  rw [readList, hfound]
  clear hfound h hword
  induction hitems with
  | nil => rfl
  | @cons x piece l found hfirst _ ih =>
    rw [List.forall_mem_cons] at hread
    rw [List.mapM_cons, hread.1 piece hfirst, ih hread.2]
    rfl

/-! ### One part -/

/-- The draft with what a part says. -/
def Part.put (d : Draft) : Part → Draft
  | .frequency f => { d with frequency := some f }
  | .interval n hpos => { d with interval := n, interval_pos := hpos }
  | .count n => { d with count := some n }
  | .last t => { d with until? := some t }
  | .byDay l => { d with byDay := l }
  | .byMonthDay l => { d with byMonthDay := l }
  | .byHour l => { d with byHour := l }
  | .byMinute l => { d with byMinute := l }
  | .weekStart => d

theorem readList_of_numerals {key : String} {least greatest : Nat} {l l' : List Nat}
    (hb : Spaces b) (h : Listed ',' Numeral l s) (hsame : ∀ n, n ∈ l ↔ n ∈ l')
    (hl : Ascending least greatest l') (hgreatest : greatest ≤ 4294967295) :
    readList (readNumber key least greatest) (b ++ s) = .ok l :=
  readList_of_listed hb h (fun _ _ _ hpiece => hpiece.word) fun n hn _ hpiece =>
    readNumber_of_numeral .nil hpiece (hl.bounds n ((hsame n).mp hn)) hgreatest

theorem Part.Written.exists_cutFirst (h : p.Written s) : ∃ key b value,
    cutFirst '=' s = some (key, b ++ value) ∧ upper (trim key) = p.key.toList ∧ Spaces b ∧
      p.Value value := by
  obtain ⟨key, value, hkey, hvalue, hjoined⟩ := h
  have hword : Word key := hkey.word p.word_key
  obtain ⟨a, b, ha, hb, hcut⟩ := hjoined.exists_cutFirst (by decide) (hword.notMem (by decide))
  refine ⟨key ++ a, b, value, hcut, ?_, hb, hvalue⟩
  rw [trim_before hword.core ha]
  exact hkey

theorem Draft.add_of_written (d : Draft) (hr : r.Canonical IsWhole) (hp : p.Holds r)
    (hs : p.Written s) : d.add s = .ok (p.put d) := by
  obtain ⟨key, b, value, hcut, hname, hb, hvalue⟩ := hs.exists_cutFirst
  cases p with
  | frequency f =>
    simp only [add, hcut, hname, Part.key, String.ofList_toList]
    rw [readFrequency_of_named hb hvalue]
    rfl
  | interval n hpos =>
    have hn : 1 ≤ n ∧ n ≤ maxInterval := by
      have heq : n = r.interval := hp
      rw [heq]
      exact hr.interval
    have hread : readNumber "INTERVAL" 1 maxInterval (b ++ value) = .ok n :=
      readNumber_of_numeral hb hvalue hn (by decide)
    simp only [add, hcut, hname, Part.key, String.ofList_toList]
    rw [hread]
    exact dif_pos hpos
  | count n =>
    have hread : readNumber "COUNT" 1 4294967295 (b ++ value) = .ok n :=
      readNumber_of_numeral hb hvalue (hr.count n hp) (Nat.le_refl _)
    simp only [add, hcut, hname, Part.key, String.ofList_toList]
    rw [hread]
    rfl
  | last t =>
    simp only [add, hcut, hname, Part.key, String.ofList_toList]
    rw [readDate_of_dateText (hr.until? t hp) hb hvalue]
    rfl
  | byDay l =>
    have hread : readList readWeekday (b ++ value) = .ok l :=
      readList_of_listed hb hvalue (fun _ _ _ hpiece => hpiece.word word_of_mem_weekdayCodes)
        fun _ _ _ hpiece => readWeekday_of_named hpiece
    simp only [add, hcut, hname, Part.key, String.ofList_toList]
    rw [hread]
    rfl
  | byMonthDay l =>
    simp only [add, hcut, hname, Part.key, String.ofList_toList]
    rw [readList_of_numerals hb hvalue hp hr.byMonthDay (by decide)]
    rfl
  | byHour l =>
    simp only [add, hcut, hname, Part.key, String.ofList_toList]
    rw [readList_of_numerals hb hvalue hp hr.byHour (by decide)]
    rfl
  | byMinute l =>
    simp only [add, hcut, hname, Part.key, String.ofList_toList]
    rw [readList_of_numerals hb hvalue hp hr.byMinute (by decide)]
    rfl
  | weekStart =>
    have hmonday : upper (trim (b ++ value)) = ['M', 'O'] := by
      rw [trim_after hb (hvalue.word (word_of_all rfl)).core]
      exact hvalue
    simp only [add, hcut, hname, Part.key, String.ofList_toList, if_pos hmonday]
    rfl

/-! ### All parts -/

theorem readParts_of_written {parts : List Part} {found : List (List Char)} {d : Draft}
    (hr : r.Canonical IsWhole) (hp : ∀ p ∈ parts, p.Holds r)
    (h : List.Forall₂ Part.Written parts found) :
    readParts d found = .ok (parts.foldl Part.put d) := by
  induction h generalizing d with
  | nil => rfl
  | cons hfirst _ ih =>
    rw [List.forall_mem_cons] at hp
    rw [readParts, Draft.add_of_written d hr hp.1 hfirst]
    exact ih hp.2

/-- A field that only the parts of one key write has the value they write, if there is one, in
whatever order the parts come. -/
theorem foldl_put {β : Type} (field : Draft → β) (value : β → Prop) {key : String}
    {parts : List Part} {d : Draft}
    (hput : ∀ p ∈ parts, ∀ d, value (field (p.put d)) ∨ p.key ≠ key ∧ field (p.put d) = field d)
    (h : key ∈ parts.map Part.key ∨ value (field d)) : value (field (parts.foldl Part.put d)) := by
  induction parts generalizing d with
  | nil => exact h.resolve_left List.not_mem_nil
  | cons p parts ih =>
    rw [List.forall_mem_cons] at hput
    refine ih hput.2 ?_
    rcases hput.1 d with hvalue | ⟨hkey, hkeep⟩
    · exact Or.inr hvalue
    · rw [hkeep]
      exact h.imp_left fun hmem => (List.mem_cons.mp hmem).resolve_left (Ne.symm hkey)

/-- A draft with all that a rule has except its start. -/
structure Draft.Tells (d : Draft) (r : Rule) : Prop where
  frequency : d.frequency = some r.frequency
  interval : d.interval = r.interval
  count : d.count = r.count
  until? : d.until? = r.until?
  byDay : ∀ w, w ∈ d.byDay ↔ w ∈ r.byDay
  byMonthDay : ∀ n, n ∈ d.byMonthDay ↔ n ∈ r.byMonthDay
  byHour : ∀ n, n ∈ d.byHour ↔ n ∈ r.byHour
  byMinute : ∀ n, n ∈ d.byMinute ↔ n ∈ r.byMinute

theorem PartsOf.tells {parts : List Part} (h : r.PartsOf parts) :
    (parts.foldl Part.put {}).Tells r where
  frequency := by
    refine foldl_put Draft.frequency (· = some r.frequency) (fun p hp d => ?_) (Or.inl h.frequency)
    cases p with
    | frequency f => exact Or.inl (congrArg some (h.holds _ hp))
    | _ => exact Or.inr ⟨by simp [Part.key], rfl⟩
  interval := by
    refine foldl_put Draft.interval (· = r.interval) (fun p hp d => ?_) (h.interval.imp_right Eq.symm)
    cases p with
    | interval n hpos => exact Or.inl (h.holds _ hp)
    | _ => exact Or.inr ⟨by simp [Part.key], rfl⟩
  count := by
    refine foldl_put Draft.count (· = r.count) (fun p hp d => ?_) (h.count.imp_right Eq.symm)
    cases p with
    | count n => exact Or.inl (h.holds _ hp).symm
    | _ => exact Or.inr ⟨by simp [Part.key], rfl⟩
  until? := by
    refine foldl_put Draft.until? (· = r.until?) (fun p hp d => ?_) (h.last.imp_right Eq.symm)
    cases p with
    | last t => exact Or.inl (h.holds _ hp).symm
    | _ => exact Or.inr ⟨by simp [Part.key], rfl⟩
  byDay := by
    refine foldl_put Draft.byDay (∀ w, w ∈ · ↔ w ∈ r.byDay) (fun p hp d => ?_)
      (h.byDay.imp_right fun hnone _ => by rw [hnone])
    cases p with
    | byDay l => exact Or.inl (h.holds _ hp)
    | _ => exact Or.inr ⟨by simp [Part.key], rfl⟩
  byMonthDay := by
    refine foldl_put Draft.byMonthDay (∀ n, n ∈ · ↔ n ∈ r.byMonthDay) (fun p hp d => ?_)
      (h.byMonthDay.imp_right fun hnone _ => by rw [hnone])
    cases p with
    | byMonthDay l => exact Or.inl (h.holds _ hp)
    | _ => exact Or.inr ⟨by simp [Part.key], rfl⟩
  byHour := by
    refine foldl_put Draft.byHour (∀ n, n ∈ · ↔ n ∈ r.byHour) (fun p hp d => ?_)
      (h.byHour.imp_right fun hnone _ => by rw [hnone])
    cases p with
    | byHour l => exact Or.inl (h.holds _ hp)
    | _ => exact Or.inr ⟨by simp [Part.key], rfl⟩
  byMinute := by
    refine foldl_put Draft.byMinute (∀ n, n ∈ · ↔ n ∈ r.byMinute) (fun p hp d => ?_)
      (h.byMinute.imp_right fun hnone _ => by rw [hnone])
    cases p with
    | byMinute l => exact Or.inl (h.holds _ hp)
    | _ => exact Or.inr ⟨by simp [Part.key], rfl⟩

/-! ### The rule -/

theorem sortedIn_eq {α : Type} [BEq α] [LawfulBEq α] {R : α → α → Prop} [Std.Antisymm R]
    [Std.Irrefl R] {all l l' : List α} (hall : all.Pairwise R) (hl : l.Pairwise R)
    (hsub : ∀ x ∈ l, x ∈ all) (hsame : ∀ x, x ∈ l' ↔ x ∈ l) : sortedIn all l' = l := by
  refine (hall.filter _).eq_of_mem_iff hl fun x => ?_
  rw [List.mem_filter, List.contains_iff_mem, hsame]
  exact and_iff_right_of_imp (hsub x)

theorem sortedIn_weekdays {l l' : List Weekday} (hl : l.Pairwise fun v w => v.index < w.index)
    (hsame : ∀ w, w ∈ l' ↔ w ∈ l) : sortedIn Weekday.all l' = l := by
  have : Std.Irrefl fun v w : Weekday => v.index < w.index := ⟨fun _ => Nat.lt_irrefl _⟩
  have : Std.Antisymm fun v w : Weekday => v.index < w.index :=
    ⟨fun _ _ h h' => absurd h' (Nat.lt_asymm h)⟩
  exact sortedIn_eq (by decide) hl (fun w _ => by cases w <;> decide) hsame

/-- The numbers between two bounds, in ascending order. -/
structure Spans (least greatest : Nat) (all : List Nat) : Prop where
  pairwise : all.Pairwise (· < ·)
  mem_iff : ∀ n, n ∈ all ↔ least ≤ n ∧ n ≤ greatest

theorem spans_monthDays : Spans 1 31 (List.range' 1 31) where
  pairwise := List.pairwise_lt_range'
  mem_iff n := by
    rw [List.mem_range'_1]
    omega

theorem spans_range (greatest : Nat) : Spans 0 greatest (List.range (greatest + 1)) where
  pairwise := List.pairwise_lt_range
  mem_iff n := by
    rw [List.mem_range]
    omega

variable {least greatest : Nat} {all l l' : List Nat}

theorem Spans.sortedIn_eq (h : Spans least greatest all) (hl : Ascending least greatest l)
    (hsame : ∀ n, n ∈ l' ↔ n ∈ l) : sortedIn all l' = l :=
  Rule.sortedIn_eq h.pairwise hl.pairwise (fun n hn => (h.mem_iff n).mpr (hl.bounds n hn)) hsame

theorem Spans.ascending (h : Spans least greatest all) (l : List Nat) :
    Ascending least greatest (sortedIn all l) where
  pairwise := h.pairwise.filter _
  bounds n hn := (h.mem_iff n).mp (List.mem_of_mem_filter hn)

theorem Draft.finish_of_tells {IsDate : Instant → Prop} {d : Draft} (h : d.Tells r)
    (hr : r.Canonical IsDate) : d.finish r.start? = .ok r := by
  have hend : ¬(r.count.isSome ∧ r.until?.isSome) := by
    rcases hr.oneEnd with hnone | hnone <;> simp [hnone]
  rw [finish, h.frequency]
  simp only [h.interval, h.count, h.until?, if_neg hend, sortedIn_weekdays hr.byDay h.byDay,
    spans_monthDays.sortedIn_eq hr.byMonthDay h.byMonthDay,
    (spans_range 23).sortedIn_eq hr.byHour h.byHour,
    (spans_range 59).sortedIn_eq hr.byMinute h.byMinute]

theorem readParts_of_body {a : List Char} (hr : r.Canonical IsWhole) (ha : Spaces a)
    (h : r.Body s) :
    ∃ d : Draft, readParts {} (pieces ';' (a ++ s)) = .ok d ∧ d.finish r.start? = .ok r := by
  obtain ⟨parts, hparts, hlisted⟩ := h
  have hmark : ';' ∉ ['=', ','] := by decide
  obtain ⟨found, hfound, hwritten⟩ := hlisted.exists_pieces (by decide) (by decide) hmark
    (fun _ _ _ hp => hp.plain) ha .nil
  have hsome : ∀ piece ∈ found, (!piece.isEmpty) = true := by
    intro piece hpiece
    obtain ⟨p, _, hp⟩ := exists_mem_of_forall₂ hwritten hpiece
    simpa using hp.plain.ne_nil
  rw [List.append_nil] at hfound
  rw [pieces, hfound, List.filter_eq_self.mpr hsome]
  exact ⟨_, readParts_of_written hr hparts.holds hwritten, Draft.finish_of_tells hparts.tells hr⟩

/-! ### Lines -/

theorem Part.head_key (p : Part) : ∀ c ∈ p.key.toList.head?, c ≠ 'D' ∧ c ≠ 'R' := by
  cases p <;> (simp only [key]; rintro c ⟨⟩; decide)

theorem Part.Written.head (h : p.Written s) : ∀ c ∈ s.head?, c ≠ 'D' ∧ c ≠ 'R' := by
  obtain ⟨key, value, hkey, -, hjoined⟩ := h
  rw [hjoined.head? (hkey.word p.word_key).ne_nil]
  intro c hc
  have hupper : c.toUpper ∈ p.key.toList.head? := by
    rw [← hkey, upper, List.head?_map]
    exact Option.mem_map_of_mem _ hc
  have hletter := p.head_key _ hupper
  constructor <;> rintro rfl
  · exact hletter.1 rfl
  · exact hletter.2 rfl

theorem Body.head (h : r.Body s) : ∀ c ∈ s.head?, c ≠ 'D' ∧ c ≠ 'R' := by
  obtain ⟨parts, -, found, hwritten, hjoined⟩ := h
  cases hwritten with
  | nil => cases hjoined
  | cons hfirst _ =>
    rw [hjoined.head? hfirst.plain.ne_nil]
    exact hfirst.head

theorem readStart_of_startLine {t : Instant} (ht : t.IsWhole) (h : StartLine t line) :
    ∃ rest, after? "DTSTART".toList line = some rest ∧ readStart rest = .ok t := by
  have hcut {a s : List Char} (front : List Char) (ha : Spaces a) (hs : DateText t s) :
      cutLast ':' (front ++ ':' :: (a ++ s)) = some (front, a ++ s) := by
    refine cutLast_append_cons front fun hcolon => ?_
    rcases List.mem_append.mp hcolon with hcolon | hcolon
    · exact ha.notMem (by decide) hcolon
    · exact hs.word.notMem (by decide) hcolon
  cases h with
  | @bare a s ha hs =>
    refine ⟨_, after?_append _ _, ?_⟩
    have hnone : cutLast ':' (':' :: (a ++ s)) = some ([], a ++ s) := hcut [] ha hs
    rw [readStart, hnone]
    exact readDate_of_dateText ht ha hs
  | @zoned zone a s hzone ha hs =>
    refine ⟨_, after?_append _ _, ?_⟩
    have hsemicolon : ';' ∉ "TZID=".toList ++ zone := by
      have hnone : ';' ∉ zone := (hzone.word (word_of_all rfl)).notMem (by decide)
      simp [hnone]
    have hparams : splitAt ';' (";TZID=".toList ++ zone) = [[], "TZID=".toList ++ zone] :=
      congrArg ([] :: ·) (splitAt_eq_singleton hsemicolon)
    have hfound : (splitAt ';' (";TZID=".toList ++ zone)).findSome? (after? "TZID=".toList) =
        some zone := by
      have hnone : after? "TZID=".toList [] = none := rfl
      simp only [hparams, List.findSome?_cons, hnone, after?_append]
    have hutc : upper zone = "UTC".toList := hzone
    rw [readStart, hcut _ ha hs]
    simp only [hfound, if_pos hutc]
    exact readDate_of_dateText ht ha hs

theorem Lines.add_start {t : Instant} (l : Lines) (ht : t.IsWhole) (h : StartLine t line) :
    l.add line = .ok { l with start := some t } := by
  obtain ⟨rest, hrest, hread⟩ := readStart_of_startLine ht h
  rw [add, hrest]
  simp only [hread]
  rfl

theorem Lines.add_rule {l : Lines} (hl : l.rule = none) (h : RuleLine r line) :
    ∃ a body, Spaces a ∧ r.Body body ∧ l.add line = .ok { l with rule := some (a ++ body) } := by
  cases h with
  | bare hs =>
    refine ⟨[], line, .nil, hs, ?_⟩
    have hstart : after? "DTSTART".toList line = none :=
      after?_eq_none fun c hc => (hs.head c hc).1
    have hmark : after? "RRULE:".toList line = none :=
      after?_eq_none fun c hc => (hs.head c hc).2
    rw [add, hstart]
    simp only [hl, hmark]
    rfl
  | @marked a body ha hs =>
    refine ⟨a, body, ha, hs, ?_⟩
    have hstart : after? "DTSTART".toList ("RRULE:".toList ++ (a ++ body)) = none :=
      after?_eq_none (by rintro _ ⟨⟩; decide)
    rw [add, hstart]
    simp only [hl, after?_append]
    rfl

theorem readLines_of_textLines {lines : List (List Char)} (hr : r.Canonical IsWhole)
    (h : TextLines r lines) :
    ∃ a body, Spaces a ∧ r.Body body ∧ readLines {} lines = .ok ⟨r.start?, some (a ++ body)⟩ := by
  cases h with
  | alone hnone hline =>
    obtain ⟨a, body, ha, hbody, hadd⟩ := Lines.add_rule (l := {}) rfl hline
    refine ⟨a, body, ha, hbody, ?_⟩
    rw [readLines, hadd, hnone]
    rfl
  | @startFirst t line start hstart hfirst hline =>
    obtain ⟨a, body, ha, hbody, hadd⟩ := Lines.add_rule (l := ⟨some t, none⟩) rfl hline
    refine ⟨a, body, ha, hbody, ?_⟩
    rw [readLines, Lines.add_start {} (hr.start? t hstart) hfirst, hstart]
    show readLines ⟨some t, none⟩ [line] = _
    rw [readLines, hadd]
    rfl
  | @startLast t line start hstart hline hlast =>
    obtain ⟨a, body, ha, hbody, hadd⟩ := Lines.add_rule (l := {}) rfl hline
    refine ⟨a, body, ha, hbody, ?_⟩
    rw [readLines, hadd, hstart]
    show readLines ⟨none, some (a ++ body)⟩ [start] = _
    rw [readLines, Lines.add_start _ (hr.start? t hstart) hlast]
    rfl

theorem pieces_of_lines {lines : List (List Char)} {a : List Char} (h : TextLines r lines)
    (hs : Joined '\n' lines s) (ha : Spaces a) (hb : Spaces b) :
    pieces '\n' (a ++ s ++ b) = lines := by
  have hplain := h.plain
  rw [pieces, hs.map_trim_splitAt (by decide) (fun line hline => ?_) ha hb,
    List.filter_eq_self.mpr fun line hline => ?_]
  · simpa using (hplain line hline).ne_nil
  · exact ⟨(hplain line hline).toCore, (hplain line hline).notMem (by decide) (by decide) (by decide)⟩

theorem ofText_of_renders {text : List Char} (hr : r.Canonical IsWhole) (h : r.Renders text) :
    ofText text = .ok r := by
  obtain ⟨lines, a, s, b, hlines, hs, ha, hb, rfl⟩ := h
  obtain ⟨a', body, ha', hbody, hread⟩ := readLines_of_textLines hr hlines
  obtain ⟨draft, hdraft, hfinish⟩ := readParts_of_body hr ha' hbody
  rw [ofText, pieces_of_lines hlines hs ha hb, hread]
  show (do
    let draft ← readParts {} (pieces ';' (a' ++ body))
    draft.finish r.start?) = .ok r
  rw [hdraft]
  exact hfinish

/-! ### What is read -/

theorem exists_of_bind_eq_ok {ε α β : Type} {x : Except ε α} {f : α → Except ε β} {b : β}
    (h : (x >>= f) = .ok b) : ∃ a, x = .ok a ∧ f a = .ok b := by
  cases x with
  | error e => cases h
  | ok a => exact ⟨a, rfl, h⟩

theorem range_of_readNumber {key : String} {n : Nat} {value : List Char}
    (h : readNumber key least greatest value = .ok n) : least ≤ n ∧ n ≤ greatest := by
  unfold readNumber at h
  split at h
  · cases h
  · split_ifs at h with hrange
    cases h
    exact hrange

theorem isSecond_of_readDate {t : Instant} {value : List Char} (h : readDate value = .ok t) :
    t.IsSecond := by
  unfold readDate at h
  split at h
  · rename_i hread
    cases h
    exact Instant.isSecond_of_ofCompact? hread
  · cases h

/-- What is checked when a part is read. The lists are checked too, but this is not needed, since
sorting leaves only numbers in range. -/
structure Draft.Sound (d : Draft) : Prop where
  interval : 1 ≤ d.interval ∧ d.interval ≤ maxInterval
  count : ∀ n ∈ d.count, 1 ≤ n ∧ n ≤ 4294967295
  until? : ∀ t ∈ d.until?, t.IsSecond

theorem Draft.Sound.add {d d' : Draft} {part : List Char} (hd : d.Sound)
    (h : d.add part = .ok d') : d'.Sound := by
  unfold Draft.add at h
  split at h
  · cases h
  · dsimp only at h
    split at h
    -- the interval
    case h_2 =>
      obtain ⟨n, hn, h⟩ := exists_of_bind_eq_ok h
      split_ifs at h
      cases h
      exact { hd with interval := range_of_readNumber hn }
    -- the count
    case h_3 =>
      obtain ⟨n, hn, h⟩ := exists_of_bind_eq_ok h
      cases h
      refine { hd with count := ?_ }
      rintro m ⟨⟩
      exact range_of_readNumber hn
    -- the last date
    case h_4 =>
      obtain ⟨t, ht, h⟩ := exists_of_bind_eq_ok h
      cases h
      refine { hd with until? := ?_ }
      rintro u ⟨⟩
      exact isSecond_of_readDate ht
    case h_9 =>
      split_ifs at h
      cases h
      exact hd
    case h_10 => cases h
    all_goals
      obtain ⟨_, _, h⟩ := exists_of_bind_eq_ok h
      cases h
      exact { hd with }

theorem Draft.Sound.readParts {d d' : Draft} {parts : List (List Char)} (hd : d.Sound)
    (h : readParts d parts = .ok d') : d'.Sound := by
  induction parts generalizing d with
  | nil =>
    cases h
    exact hd
  | cons part parts ih =>
    obtain ⟨next, hnext, h⟩ := exists_of_bind_eq_ok h
    exact ih (hd.add hnext) h

theorem Lines.isSecond_of_add {lines lines' : Lines} (h : lines.add line = .ok lines')
    (hstart : ∀ t ∈ lines.start, t.IsSecond) : ∀ t ∈ lines'.start, t.IsSecond := by
  unfold Lines.add at h
  split at h
  · obtain ⟨t, ht, h⟩ := exists_of_bind_eq_ok h
    cases h
    rintro u ⟨⟩
    unfold readStart at ht
    split at ht
    · cases ht
    · split at ht
      · split_ifs at ht
        exact isSecond_of_readDate ht
      · exact isSecond_of_readDate ht
  · split at h
    · cases h
    · cases h
      exact hstart

theorem isSecond_of_readLines {lines lines' : Lines} {texts : List (List Char)}
    (h : readLines lines texts = .ok lines') (hstart : ∀ t ∈ lines.start, t.IsSecond) :
    ∀ t ∈ lines'.start, t.IsSecond := by
  induction texts generalizing lines with
  | nil =>
    cases h
    exact hstart
  | cons text texts ih =>
    obtain ⟨next, hnext, h⟩ := exists_of_bind_eq_ok h
    exact ih h (Lines.isSecond_of_add hnext hstart)

theorem Draft.Sound.finish {d : Draft} {start : Option Instant} (hd : d.Sound)
    (hstart : ∀ t ∈ start, t.IsSecond) (h : d.finish start = .ok r) :
    r.Canonical Instant.IsSecond := by
  unfold Draft.finish at h
  split at h
  · cases h
  · split_ifs at h with hend
    cases h
    exact {
      interval := hd.interval
      count := hd.count
      until? := hd.until?
      oneEnd := by
        rcases hcount : d.count with _ | n
        · exact Or.inl rfl
        · rcases huntil : d.until? with _ | t
          · exact Or.inr rfl
          · exact absurd ⟨by rw [hcount]; rfl, by rw [huntil]; rfl⟩ hend
      byDay := List.Pairwise.filter _ (by decide)
      byMonthDay := spans_monthDays.ascending _
      byHour := (spans_range 23).ascending _
      byMinute := (spans_range 59).ascending _
      start? := hstart }

theorem canonical_of_ofText {text : List Char} (h : ofText text = .ok r) :
    r.Canonical Instant.IsSecond := by
  obtain ⟨lines, hlines, h⟩ := exists_of_bind_eq_ok h
  have hstart := isSecond_of_readLines hlines fun _ ht => nomatch ht
  have hempty : Draft.Sound {} := ⟨by decide, fun _ hn => (nomatch hn), fun _ ht => (nomatch ht)⟩
  split at h
  · cases h
  · obtain ⟨draft, hdraft, h⟩ := exists_of_bind_eq_ok h
    exact (hempty.readParts hdraft).finish hstart h

/-- Reading inverts writing: a canonical rule with dates of whole seconds has texts, and each of
them is read as the rule. Whatever is read is canonical, with dates in any year and leap seconds
among them. -/
theorem ofText_inverts_renders :
    (∀ r : Rule, r.Canonical IsWhole →
      (∃ text, r.Renders text) ∧ ∀ text, r.Renders text → ofText text = .ok r) ∧
    ∀ text r, ofText text = .ok r → r.Canonical Instant.IsSecond :=
  ⟨fun r hr => ⟨r.exists_renders, fun _ => ofText_of_renders hr⟩, fun _ _ => canonical_of_ofText⟩

/-- Nine o'clock on the first day of February 2024. -/
def nineInFebruary : Instant := (Instant.at? 19754 9 0 0 0).getD .epoch

/-- Twice a day from February on. -/
def twiceADay : Rule where
  frequency := .daily
  interval := 1
  count := none
  until? := none
  byDay := []
  byMonthDay := []
  byHour := [9, 17]
  byMinute := []
  start? := some nineInFebruary
  interval_pos := Nat.one_pos

theorem canonical_twiceADay : twiceADay.Canonical IsWhole where
  interval := by decide
  count := by rintro _ ⟨⟩
  until? := by rintro _ ⟨⟩
  oneEnd := Or.inl rfl
  byDay := .nil
  byMonthDay := ⟨.nil, by decide⟩
  byHour := ⟨by decide, by decide⟩
  byMinute := ⟨.nil, by decide⟩
  start? := by
    rintro _ ⟨⟩
    exact ⟨rfl, by decide, by decide⟩

theorem startLine_nineInFebruary : StartLine nineInFebruary "DTSTART:20240201T090000Z".toList := by
  have hdigits : nineInFebruary.dayDigits ++ 'T' :: nineInFebruary.clockDigits ++ ['Z'] =
      "20240201T090000Z".toList := by
    decide +kernel
  have hdate : DateText nineInFebruary "20240201T090000Z".toList := hdigits ▸ .utc
  exact StartLine.bare .nil hdate

theorem partsOf_twiceADay :
    twiceADay.PartsOf [.byHour [17, 9, 9], .frequency .daily, .weekStart] where
  holds := by
    have hhours : Part.Holds twiceADay (.byHour [17, 9, 9]) := by
      intro n
      simp only [twiceADay, List.mem_cons, List.not_mem_nil]
      tauto
    simp only [List.forall_mem_cons, List.not_mem_nil, false_imp_iff, implies_true, and_true]
    exact ⟨hhours, rfl, trivial⟩
  frequency := by decide
  interval := Or.inr rfl
  count := Or.inr rfl
  last := Or.inr rfl
  byDay := Or.inr rfl
  byMonthDay := Or.inr rfl
  byHour := Or.inl (by decide)
  byMinute := Or.inr rfl

theorem body_twiceADay : twiceADay.Body "byhour=17, 9 ,9; Freq = daily;WKST=mo".toList := by
  have hspace : Spaces [' '] := by decide
  have hhours : Part.Written (.byHour [17, 9, 9]) "byhour=17, 9 ,9".toList :=
    ⟨"byhour".toList, "17, 9 ,9".toList, by decide,
      ⟨["17".toList, "9".toList, "9".toList],
        .cons ⟨0, by decide⟩ (.cons ⟨0, by decide⟩ (.cons ⟨0, by decide⟩ .nil)),
        .cons .nil hspace (.cons hspace .nil (.one _))⟩,
      .cons .nil .nil (.one _)⟩
  have hfrequency : Part.Written (.frequency .daily) "Freq = daily".toList :=
    ⟨"Freq".toList, "daily".toList, by decide, ⟨"DAILY", by decide, by decide⟩,
      .cons hspace hspace (.one _)⟩
  have hmonday : Spells "MO" "mo".toList := by decide
  have hweek : Part.Written .weekStart "WKST=mo".toList :=
    ⟨"WKST".toList, "mo".toList, by decide, hmonday, .cons .nil .nil (.one _)⟩
  exact ⟨_, partsOf_twiceADay,
    ["byhour=17, 9 ,9".toList, "Freq = daily".toList, "WKST=mo".toList],
    .cons hhours (.cons hfrequency (.cons hweek .nil)),
    .cons .nil hspace (.cons .nil .nil (.one _))⟩

/-- Mixed cases, a list out of order, a default that is said, and the start behind the rule. -/
theorem ofText_inverts_renders_twiceADay :
    twiceADay.Renders
      "byhour=17, 9 ,9; Freq = daily;WKST=mo\nDTSTART:20240201T090000Z".toList ∧
    ofText "byhour=17, 9 ,9; Freq = daily;WKST=mo\nDTSTART:20240201T090000Z".toList =
      .ok twiceADay ∧
    twiceADay.Canonical Instant.IsSecond := by
  have hrenders : twiceADay.Renders
      "byhour=17, 9 ,9; Freq = daily;WKST=mo\nDTSTART:20240201T090000Z".toList :=
    ⟨_, [], _, [], .startLast rfl (.bare body_twiceADay) startLine_nineInFebruary,
      .cons .nil .nil (.one _), .nil, .nil, rfl⟩
  have hread := (ofText_inverts_renders.1 twiceADay canonical_twiceADay).2 _ hrenders
  exact ⟨hrenders, hread, ofText_inverts_renders.2 _ _ hread⟩

end RunScheduler.Rule
