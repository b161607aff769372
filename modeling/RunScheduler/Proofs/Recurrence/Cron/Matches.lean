import RunScheduler.Proofs.Instant.Parts
import RunScheduler.Recurrence.Cron

/-!
# Matches of a cron pattern

An instant matches a pattern when each of its parts is in the set of its unit
(`Pattern.Matches`). Wherever a search begins, it finds nothing but matches
(`Pattern.matches_of_next?`).

A search goes through the numbers of a unit in order and searches the next smaller unit for each
of them. What it has to find is the first of a set (`First`), and the first of the blocks that is
not empty has the first of all (`First.findSome?`). The search for a time of day is shown here to
find the first (`Pattern.first_clock`).
-/

namespace RunScheduler.Cron

/-! ### What a search finds -/

/-- A search for the first member of a set, by a key, finds it, or finds nothing if there is
none. -/
def First {α : Type} (key : α → Int) (S : α → Prop) : Option α → Prop
  | none => ∀ a, ¬ S a
  | some a => S a ∧ ∀ b, S b → key a ≤ key b

namespace First

variable {α ι : Type} {key : α → Int} {S T : α → Prop} {o : Option α}

theorem congr (h : First key S o) (hiff : ∀ a, T a ↔ S a) : First key T o := by
  have hset : T = S := funext fun a => propext (hiff a)
  rw [hset]
  exact h

/-- Where a set falls into blocks, one for each number of a part, the first block that is not
empty has the first of all. -/
theorem findSome? (part : α → Nat) (num : ι → Nat) {l : List ι} {f : ι → Option α}
    (hasc : (l.map num).Pairwise (· < ·))
    (hkey : ∀ a b, S a → S b → part a < part b → key a ≤ key b)
    (hpart : ∀ a, S a → part a ∈ l.map num)
    (hblock : ∀ i ∈ l, First key (fun a => S a ∧ part a = num i) (f i)) :
    First key S (l.findSome? f) := by
  induction l generalizing S with
  | nil => exact fun a ha => nomatch hpart a ha
  | cons i l ih =>
    have hfirst := hblock i List.mem_cons_self
    rw [List.map_cons, List.pairwise_cons] at hasc
    rw [List.findSome?_cons]
    cases hi : f i with
    | some a =>
      rw [hi] at hfirst
      obtain ⟨⟨ha, hnum⟩, hleast⟩ := hfirst
      refine ⟨ha, fun b hb => ?_⟩
      have hmem := hpart b hb
      rw [List.map_cons, List.mem_cons] at hmem
      rcases hmem with heq | hlater
      · exact hleast b ⟨hb, heq⟩
      · exact hkey a b ha hb (hnum ▸ hasc.1 _ hlater)
    | none =>
      rw [hi] at hfirst
      refine ih hasc.2 hkey (fun a ha => ?_) fun j hj => hblock j (List.mem_cons_of_mem i hj)
      have hmem := hpart a ha
      rw [List.map_cons, List.mem_cons] at hmem
      exact hmem.resolve_left fun heq => hfirst a ⟨ha, heq⟩

end First

/-! ### Matches -/

/-- Numbers of a unit, in ascending order. -/
structure Field.Ascending (f : Field) (numbers : List Nat) : Prop where
  pairwise : numbers.Pairwise (· < ·)
  le : ∀ n ∈ numbers, f.least ≤ n ∧ n ≤ f.greatest

theorem Field.mem_all {f : Field} {n : Nat} : n ∈ f.all ↔ f.least ≤ n ∧ n ≤ f.greatest := by
  have hle : f.least ≤ f.greatest + 1 := by cases f <;> decide
  rw [Field.all, List.mem_range'_1]
  omega

theorem Field.ascending_all (f : Field) : f.Ascending f.all :=
  ⟨List.pairwise_lt_range', fun _ => Field.mem_all.mp⟩

theorem Field.Ascending.filter {f : Field} {l : List Nat} (h : f.Ascending l) (p : Nat → Bool) :
    f.Ascending (l.filter p) :=
  ⟨h.pairwise.filter p, fun n hn => h.le n (List.mem_filter.mp hn).1⟩

/-- The time of day of an instant. -/
def Clock.of (t : Instant) : Clock := ⟨t.hour, t.minute, t.secondOfMinute⟩

/-- The place of a time in its day, in seconds. -/
def Clock.place (c : Clock) : Int := c.hour * 3600 + c.minute * 60 + c.second

namespace Pattern

/-- The numbers of each unit are as the search needs them. -/
structure WellFormed (p : Pattern) : Prop where
  seconds : Field.seconds.Ascending p.seconds
  minutes : Field.minutes.Ascending p.minutes
  hours : Field.hours.Ascending p.hours
  daysOfMonth : Field.daysOfMonth.Ascending p.daysOfMonth
  months : Field.months.Ascending p.months
  years : Field.years.Ascending p.years

/-- A time of day has its parts in the sets. -/
structure HasClock (p : Pattern) (c : Clock) : Prop where
  hour : c.hour ∈ p.hours
  minute : c.minute ∈ p.minutes
  second : c.second ∈ p.seconds

/-- An instant on a full second has all its parts in the sets. -/
structure Matches (p : Pattern) (t : Instant) : Prop where
  nano : t.nano = 0
  clock : p.HasClock (.of t)
  dayOfMonth : t.dayOfMonth ∈ p.daysOfMonth
  month : t.month ∈ p.months
  weekday : t.weekday.fromSunday ∈ p.daysOfWeek
  year : ∃ y ∈ p.years, t.year = (y : Nat)

variable {p : Pattern} {t u start after : Instant}

theorem Matches.year_nonneg (h : p.Matches t) : 0 ≤ t.year := by
  obtain ⟨y, -, hy⟩ := h.year
  omega

theorem WellFormed.year_bounds (hp : p.WellFormed) {year : Nat} (h : year ∈ p.years) :
    (-262143 : Int) ≤ year ∧ (year : Int) ≤ 262142 := by
  have hyear := hp.years.le year h
  simp only [Field.least, Field.greatest] at hyear
  omega

theorem map_fst_candidates (set : List Nat) (n : Nat) :
    (candidates set n).map (·.1) = set.filter (n ≤ ·) := by
  unfold candidates
  rw [List.map_map]
  exact List.map_id _

theorem mem_candidates_iff {set : List Nat} {n m : Nat} {same : Bool} :
    (m, same) ∈ candidates set n ↔ (m ∈ set ∧ n ≤ m) ∧ same = (m == n) := by
  simp only [candidates, List.mem_map, List.mem_filter, decide_eq_true_eq, Prod.mk.injEq]
  constructor
  · rintro ⟨_, hmem, rfl, rfl⟩
    exact ⟨hmem, rfl⟩
  · rintro ⟨hmem, rfl⟩
    exact ⟨m, hmem, rfl, rfl⟩

theorem index_eq_zero_iff {l : List Nat} (hasc : l.Pairwise (· < ·)) {n i : Nat}
    (h : (n, i) ∈ l.zipIdx) : i = 0 ↔ ∀ m ∈ l, n ≤ m := by
  have hget : l[i]? = some n := List.mem_zipIdx_iff_getElem?.mp h
  cases l with
  | nil => cases h
  | cons first l =>
    cases i with
    | zero =>
      obtain rfl : first = n := Option.some.inj hget
      refine iff_of_true rfl fun m hm => ?_
      rcases List.mem_cons.mp hm with rfl | hm
      · exact Nat.le_refl _
      · exact Nat.le_of_lt (List.rel_of_pairwise_cons hasc hm)
    | succ i =>
      have hlater : first < n :=
        List.rel_of_pairwise_cons hasc (List.mem_of_getElem? (i := i) hget)
      refine iff_of_false (Nat.succ_ne_zero i) fun hall => ?_
      exact Nat.not_lt.mpr (hall first List.mem_cons_self) hlater

theorem ite_index {α : Type} {l : List Nat} (hasc : l.Pairwise (· < ·)) {n i first : Nat}
    (h : (n, i) ∈ l.zipIdx) (hfirst : ∀ m ∈ l, first ≤ m) (x y : α) :
    (if i = 0 then if first ∈ l then x else y else y) = if n = first then x else y := by
  have hzero := index_eq_zero_iff hasc h
  have hmem : n ∈ l := List.mem_of_getElem? (List.mem_zipIdx_iff_getElem?.mp h)
  by_cases hsame : n = first
  · subst hsame
    rw [if_pos (hzero.mpr hfirst), if_pos hmem, if_pos rfl]
  · rw [if_neg hsame]
    split_ifs with hindex hin
    · exact absurd (Nat.le_antisymm (hzero.mp hindex first hin) (hfirst n hmem)) hsame
    · rfl
    · rfl

/-! ### The time of day -/

theorem clock_of_lt (t : Instant) :
    (Clock.of t).hour < 24 ∧ (Clock.of t).minute < 60 ∧ (Clock.of t).second < 60 :=
  ⟨t.hour_lt, t.minute_lt, t.secondOfMinute_lt⟩

theorem second_eq_place (t : Instant) : t.second = t.day * 86400 + (Clock.of t).place := by
  have := t.second_eq_parts
  unfold Clock.of Clock.place
  simp only
  omega

theorem clock_of_at? {day : Int} {c : Clock} {nano : Nat}
    (h : Instant.at? day c.hour c.minute c.second nano = some t) : Clock.of t = c := by
  obtain ⟨-, hhour, hminute, hsecond⟩ := Instant.parts_of_at? h
  unfold Clock.of
  rw [hhour, hminute, hsecond]

theorem HasClock.lt (hp : p.WellFormed) {c : Clock} (h : p.HasClock c) :
    c.hour < 24 ∧ c.minute < 60 ∧ c.second < 60 := by
  have hhour := (hp.hours.le _ h.hour).2
  have hminute := (hp.minutes.le _ h.minute).2
  have hsecond := (hp.seconds.le _ h.second).2
  simp only [Field.greatest] at hhour hminute hsecond
  omega

theorem first_second (hp : p.WellFormed) (hour minute start : Nat) :
    First Clock.place
      (fun c => c.second ∈ p.seconds ∧ start ≤ c.second ∧ c.hour = hour ∧ c.minute = minute)
      ((p.firstSecond? start).map fun second => ⟨hour, minute, second⟩) := by
  unfold firstSecond?
  cases hfind : p.seconds.find? (start ≤ ·) with
  | none =>
    rintro c ⟨hmem, hle, -⟩
    exact absurd (decide_eq_true hle) (List.find?_eq_none.mp hfind _ hmem)
  | some second =>
    obtain ⟨hle, before, rest, hseconds, hbefore⟩ := List.find?_eq_some_iff_append.mp hfind
    have hasc := hp.seconds.pairwise
    rw [hseconds] at hasc ⊢
    refine ⟨⟨by simp, of_decide_eq_true hle, rfl, rfl⟩, fun c hc => ?_⟩
    obtain ⟨hmem, hstart, hhour, hminute⟩ := hc
    have hsecond : second ≤ c.second := by
      rcases List.mem_append.mp hmem with hmem | hmem
      · have hlate := hbefore _ hmem
        rw [decide_eq_true hstart] at hlate
        cases hlate
      · rcases List.mem_cons.mp hmem with heq | hmem
        · exact Nat.le_of_eq heq.symm
        · exact Nat.le_of_lt
            (List.rel_of_pairwise_cons (List.pairwise_append.mp hasc).2.1 hmem)
    unfold Clock.place
    simp only [hhour, hminute]
    omega

theorem first_minute (hp : p.WellFormed) {hour : Nat} (hhour : hour ∈ p.hours)
    (minute : Nat) {second : Nat} (hsecond : second < 60) :
    First Clock.place
      (fun c => (p.HasClock c ∧ minute * 60 + second ≤ c.minute * 60 + c.second) ∧ c.hour = hour)
      ((candidates p.minutes minute).findSome? fun (m, same) =>
        (p.firstSecond? (if same then second else 0)).map fun s => ⟨hour, m, s⟩) := by
  refine First.findSome? (·.minute) Prod.fst ?_ ?_ ?_ ?_
  · rw [map_fst_candidates]
    exact hp.minutes.pairwise.filter _
  · rintro a b ⟨⟨ha, -⟩, hhour⟩ ⟨⟨hb, -⟩, hhour'⟩ hlt
    have := ha.lt hp
    unfold Clock.place
    omega
  · rintro c ⟨⟨hc, hle⟩, -⟩
    have := hc.lt hp
    rw [map_fst_candidates, List.mem_filter, decide_eq_true_eq]
    exact ⟨hc.minute, by omega⟩
  · rintro ⟨m, same⟩ hmem
    obtain ⟨⟨hm, hle⟩, rfl⟩ := mem_candidates_iff.mp hmem
    refine (first_second hp hour m _).congr fun c => ?_
    constructor
    · rintro ⟨⟨⟨hc, hfrom⟩, hh⟩, hmin⟩
      refine ⟨hc.second, ?_, hh, hmin⟩
      simp only at hmin
      split_ifs with hsame
      · rw [beq_iff_eq] at hsame
        omega
      · omega
    · rintro ⟨hs, hfrom, rfl, rfl⟩
      refine ⟨⟨⟨⟨hhour, hm, hs⟩, ?_⟩, rfl⟩, rfl⟩
      split_ifs at hfrom with hsame
      · rw [beq_iff_eq] at hsame
        omega
      · rw [beq_iff_eq] at hsame
        omega

theorem first_clock (hp : p.WellFormed) {start : Clock}
    (hstart : start.minute < 60 ∧ start.second < 60) :
    First Clock.place (fun c => p.HasClock c ∧ start.place ≤ c.place) (p.firstClock? start) := by
  refine First.findSome? (·.hour) Prod.fst ?_ ?_ ?_ ?_
  · rw [map_fst_candidates]
    exact hp.hours.pairwise.filter _
  · rintro a b ⟨ha, -⟩ ⟨hb, -⟩ hlt
    have := ha.lt hp
    unfold Clock.place
    omega
  · rintro c ⟨hc, hle⟩
    have := hc.lt hp
    unfold Clock.place at hle
    rw [map_fst_candidates, List.mem_filter, decide_eq_true_eq]
    exact ⟨hc.hour, by omega⟩
  · rintro ⟨hour, same⟩ hmem
    obtain ⟨⟨hhour, hle⟩, rfl⟩ := mem_candidates_iff.mp hmem
    by_cases hsame : hour = start.hour
    · rw [beq_iff_eq.mpr hsame]
      refine (first_minute hp hhour start.minute hstart.2).congr fun c => ?_
      refine and_congr_left fun hc => and_congr_right fun _ => ?_
      unfold Clock.place
      omega
    · rw [beq_eq_false_iff_ne.mpr hsame]
      have hall := first_minute hp hhour 0 (by decide : 0 < 60)
      simp only [ite_self] at hall
      refine hall.congr fun c => ?_
      refine and_congr_left fun hc => and_congr_right fun _ => ?_
      unfold Clock.place
      omega

/-! ### What is found matches -/

theorem hasClock_of_firstClock? {start c : Clock} (h : p.firstClock? start = some c) :
    p.HasClock c := by
  obtain ⟨⟨hour, same⟩, hhour, h⟩ := List.exists_of_findSome?_eq_some h
  obtain ⟨⟨minute, same'⟩, hminute, h⟩ := List.exists_of_findSome?_eq_some h
  obtain ⟨second, hsecond, rfl⟩ := Option.map_eq_some_iff.mp h
  constructor
  · exact (mem_candidates_iff.mp hhour).1.1
  · exact (mem_candidates_iff.mp hminute).1.1
  · exact List.mem_of_find?_eq_some hsecond

theorem matches_of_firstOnDay? {year month day : Nat} {clock : Clock}
    (hin : year ∈ p.years ∧ month ∈ p.months ∧ day ∈ p.daysOfMonth)
    (h : p.firstOnDay? year month day clock = some t) : p.Matches t := by
  unfold firstOnDay? at h
  split at h
  · cases h
  · rename_i number hnumber
    split_ifs at h with hweekday
    split at h
    · cases h
    · rename_i c hfirst
      obtain ⟨hday, -⟩ := Instant.parts_of_at? h
      obtain ⟨-, hdate, heq⟩ := Calendar.dayNumber?_eq_some_iff.mp hnumber
      obtain ⟨hy, hm, hd⟩ := Instant.date_of_day_eq hdate (hday.trans heq)
      constructor
      · exact (Instant.at?_eq_some_iff.mp h).2.2
      · rw [clock_of_at? h]
        exact hasClock_of_firstClock? hfirst
      · rw [hd]
        exact hin.2.2
      · rw [hm]
        exact hin.2.1
      · unfold Instant.weekday
        rw [hday]
        exact hweekday
      · exact ⟨year, hin.1, hy⟩

theorem matches_of_firstInMonth? {year month day : Nat} {clock : Clock}
    (hin : year ∈ p.years ∧ month ∈ p.months)
    (h : p.firstInMonth? year month day clock = some t) : p.Matches t := by
  obtain ⟨⟨d, i⟩, hd, h⟩ := List.exists_of_findSome?_eq_some h
  have hmem := List.mem_of_getElem? (List.mem_zipIdx_iff_getElem?.mp hd)
  exact matches_of_firstOnDay? ⟨hin.1, hin.2, (List.mem_filter.mp hmem).1⟩ h

theorem matches_of_firstInYear? {year : Nat} {place : Place} (hin : year ∈ p.years)
    (h : p.firstInYear? year place = some t) : p.Matches t := by
  obtain ⟨⟨month, same⟩, hmonth, h⟩ := List.exists_of_findSome?_eq_some h
  have hmem := (mem_candidates_iff.mp hmonth).1.1
  simp only at h
  split_ifs at h
  · exact matches_of_firstInMonth? ⟨hin, hmem⟩ h
  · exact matches_of_firstInMonth? ⟨hin, hmem⟩ h

theorem matches_of_next? (h : p.next? after = some t) : p.Matches t := by
  unfold next? at h
  split at h
  · cases h
  · split_ifs at h
    obtain ⟨⟨year, i⟩, hyear, h⟩ := List.exists_of_findSome?_eq_some h
    have hmem := List.mem_of_getElem? (List.mem_zipIdx_iff_getElem?.mp hyear)
    exact matches_of_firstInYear? (List.mem_filter.mp hmem).1 h

end Pattern

end RunScheduler.Cron
