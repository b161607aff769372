import RunScheduler.Instant.Printer
import RunScheduler.Proofs.Calendar
import RunScheduler.Proofs.Text

/-!
# Instants are written in ways of their own

An instant is determined by its year, month and day of the month and its time of day, where a leap
second has a second of its own (`parts_injective`). So two instants that are written alike are the
same (`toOffsetString_injective`), in whichever year of the calendar they lie and whatever the
fraction of their second.
-/

namespace RunScheduler

namespace Instant

open Text

variable {t u : Instant}

theorem day_injective (hyear : t.year = u.year) (hmonth : t.month = u.month)
    (hday : t.dayOfMonth = u.dayOfMonth) : t.day = u.day := by
  have ht := Calendar.dayNumber_parts t.day
  rw [year, year] at hyear
  rw [month, month] at hmonth
  rw [dayOfMonth, dayOfMonth] at hday
  rw [hyear, hmonth, hday, Calendar.dayNumber_parts u.day] at ht
  exact ht.symm

/-- The parts that are written determine an instant. -/
theorem parts_injective (hday : t.day = u.day) (hhour : t.hour = u.hour)
    (hminute : t.minute = u.minute) (hsecond : t.writtenSecond = u.writtenSecond)
    (hnano : t.nano % 1000000000 = u.nano % 1000000000) : t = u := by
  have ht := t.nano_lt
  have hu := u.nano_lt
  have htleap := t.leap_at_59
  have huleap := u.leap_at_59
  simp only [writtenSecond, secondOfMinute, secondOfDay] at hsecond
  simp only [day, hour, minute, secondOfDay] at hday hhour hminute
  exact Instant.ext (by omega) (by omega)

/-! ### The texts of the parts -/

/-- The sign of a year as it is written. -/
def yearSign (year : Int) : List Char :=
  if year < 0 then ['-'] else if 9999 < year then ['+'] else []

theorem yearText_eq (year : Int) : yearText year = yearSign year ++ padded 4 year.natAbs := by
  simp only [yearText, yearSign]
  split_ifs with hplain hneg hlate hneg hlate
  any_goals omega
  · have habs : year.toNat = year.natAbs := by omega
    rw [habs, List.nil_append]
  · rfl
  · rfl

theorem yearText_injective : Function.Injective yearText := by
  intro y z h
  have hdigits (w : Int) : (yearText w).filter Char.isDigit = padded 4 w.natAbs := by
    have hsign : (yearSign w).filter Char.isDigit = [] := by
      rw [yearSign]
      split_ifs <;> decide
    rw [yearText_eq, List.filter_append, hsign, List.nil_append]
    exact List.filter_eq_self.mpr fun c hc => isDigit_of_mem_padded hc
  have habs : y.natAbs = z.natAbs := padded_injective 4 (by rw [← hdigits y, h, hdigits z])
  rw [yearText_eq, yearText_eq, habs] at h
  have hsign := List.append_cancel_right h
  simp only [yearSign] at hsign
  split_ifs at hsign
  all_goals first | omega | cases hsign

theorem fractionText_injective {n m : Nat} (hn : n < 1000000000) (hm : m < 1000000000)
    (h : fractionText n = fractionText m) : n = m := by
  have hvalue {k : Nat} (hk : k < 1000000000) :
      digitsValue (fractionText k).tail * 10 ^ (10 - (fractionText k).length) = k := by
    rw [fractionText]
    by_cases hzero : k = 0
    · rw [if_pos hzero, hzero]
      rfl
    rw [if_neg hzero]
    by_cases hmillis : k % 1000000 = 0
    · rw [if_pos hmillis, List.tail_cons, List.length_cons, digitsValue_padded,
        length_padded (by decide) (by omega)]
      omega
    rw [if_neg hmillis]
    by_cases hmicros : k % 1000 = 0
    · rw [if_pos hmicros, List.tail_cons, List.length_cons, digitsValue_padded,
        length_padded (by decide) (by omega)]
      omega
    · rw [if_neg hmicros, List.tail_cons, List.length_cons, digitsValue_padded,
        length_padded (by decide) hk]
      omega
  rw [← hvalue hn, h, hvalue hm]

theorem isDigit_of_mem_head?_fractionText (n : Nat) :
    ∀ c ∈ (fractionText n).head?, c.isDigit = false := by
  rw [fractionText]
  split_ifs <;> simp

theorem mem_fractionText {n : Nat} {c : Char} (h : c ∈ fractionText n) :
    c = '.' ∨ c.isDigit = true := by
  rw [fractionText] at h
  split_ifs at h
  · cases h
  all_goals exact (List.mem_cons.mp h).imp_right isDigit_of_mem_padded

/-! ### The whole text -/

theorem mem_yearText {year : Int} {c : Char} (h : c ∈ yearText year) :
    c = '-' ∨ c = '+' ∨ c.isDigit = true := by
  rw [yearText_eq, List.mem_append] at h
  rcases h with hsign | hdigit
  · rw [yearSign] at hsign
    split_ifs at hsign
    · exact Or.inl (List.mem_singleton.mp hsign)
    · exact Or.inr (Or.inl (List.mem_singleton.mp hsign))
    · cases hsign
  · exact Or.inr (Or.inr (isDigit_of_mem_padded hdigit))

theorem notMem_dateText {c : Char} (hdigit : c.isDigit = false) (hminus : c ≠ '-')
    (hplus : c ≠ '+') : c ∉ t.dateText := by
  intro h
  simp only [dateText, List.mem_append, List.mem_cons] at h
  rcases h with (hyear | hsep | hmonth) | hsep | hday
  · rcases mem_yearText hyear with heq | heq | hyes
    · exact hminus heq
    · exact hplus heq
    · rw [hdigit] at hyes
      cases hyes
  · exact hminus hsep
  · exact notMem_padded hdigit _ _ hmonth
  · exact hminus hsep
  · exact notMem_padded hdigit _ _ hday

theorem notMem_timeText {c : Char} (hdigit : c.isDigit = false) (hcolon : c ≠ ':')
    (hpoint : c ≠ '.') : c ∉ t.timeText := by
  intro h
  simp only [timeText, List.mem_append, List.mem_cons] at h
  rcases h with ((hhour | hsep | hminute) | hsep | hsecond) | hfraction
  · exact notMem_padded hdigit _ _ hhour
  · exact hcolon hsep
  · exact notMem_padded hdigit _ _ hminute
  · exact hcolon hsep
  · exact notMem_padded hdigit _ _ hsecond
  · rcases mem_fractionText hfraction with heq | hyes
    · exact hpoint heq
    · rw [hdigit] at hyes
      cases hyes

theorem dateText_injective (h : t.dateText = u.dateText) : t.day = u.day := by
  have hhyphen (n : Nat) : '-' ∉ padded 2 n := notMem_padded (by decide) 2 n
  rw [dateText, dateText] at h
  obtain ⟨hfront, hday⟩ := append_cons_inj (hhyphen _) (hhyphen _) h
  obtain ⟨hyear, hmonth⟩ := append_cons_inj (hhyphen _) (hhyphen _) hfront
  exact day_injective (yearText_injective hyear) (padded_injective 2 hmonth)
    (padded_injective 2 hday)

theorem timeText_injective (h : t.timeText = u.timeText) :
    t.hour = u.hour ∧ t.minute = u.minute ∧ t.writtenSecond = u.writtenSecond ∧
      t.nano % 1000000000 = u.nano % 1000000000 := by
  have hcolon (n : Nat) : ':' ∉ padded 2 n := notMem_padded (by decide) 2 n
  have hlast (v : Instant) :
      ':' ∉ padded 2 v.writtenSecond ++ fractionText (v.nano % 1000000000) := by
    rw [List.mem_append, not_or]
    refine ⟨hcolon _, fun hmem => ?_⟩
    rcases mem_fractionText hmem with heq | heq <;> exact absurd heq (by decide)
  have hsplit (v : Instant) : v.timeText = (padded 2 v.hour ++ ':' :: padded 2 v.minute) ++
      ':' :: (padded 2 v.writtenSecond ++ fractionText (v.nano % 1000000000)) := by
    rw [timeText, List.append_assoc (_ ++ _), List.cons_append]
  rw [hsplit t, hsplit u] at h
  obtain ⟨hfront, hback⟩ := append_cons_inj (hlast t) (hlast u) h
  obtain ⟨hhour, hminute⟩ := append_cons_inj (hcolon _) (hcolon _) hfront
  obtain ⟨hsecond, hfraction⟩ := padded_append_inj (isDigit_of_mem_head?_fractionText _)
    (isDigit_of_mem_head?_fractionText _) hback
  have hnano (v : Instant) : v.nano % 1000000000 < 1000000000 := Nat.mod_lt _ (by decide)
  exact ⟨padded_injective 2 hhour, padded_injective 2 hminute, hsecond,
    fractionText_injective (hnano t) (hnano u) hfraction⟩

theorem toOffsetString_injective : Function.Injective toOffsetString := by
  intro t u h
  have htext := List.append_cancel_right (String.ofList_injective h)
  obtain ⟨hdate, htime⟩ := append_cons_inj (notMem_timeText (by decide) (by decide) (by decide))
    (notMem_timeText (by decide) (by decide) (by decide)) htext
  obtain ⟨hhour, hminute, hsecond, hnano⟩ := timeText_injective htime
  exact parts_injective (dateText_injective hdate) hhour hminute hsecond hnano

theorem blank_notMem_toOffsetString (t : Instant) : ' ' ∉ t.toOffsetString.toList := by
  rw [toOffsetString, String.toList_ofList]
  simp only [List.mem_append, List.mem_cons, not_or]
  refine ⟨⟨notMem_dateText (by decide) (by decide) (by decide), by decide, ?_⟩, by decide⟩
  exact notMem_timeText (by decide) (by decide) (by decide)

end Instant

end RunScheduler
