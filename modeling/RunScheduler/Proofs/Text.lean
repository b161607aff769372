import Mathlib.Algebra.Group.Nat.Defs
import Mathlib.Data.List.Basic
import RunScheduler.Text.Cut
import RunScheduler.Text.Decimal
import RunScheduler.Text.Hexadecimal

/-!
# Texts that are read in one way only

Hexadecimal digits of a fixed width have the value they were written for (`hexValue?_hexDigits`),
and decimal digits do so whatever zeros stand in front (`digitsValue_padded`). A text with a
separator in it is taken apart at the first one (`splitAt_append_cons`, `cutFirst_append_cons`) or
at the last one (`append_cons_inj`, `cutLast_append_cons`) in one way only, and so is a text with a
number in front (`padded_append_inj`), which is read up to its greatest width or to the first
character that is no digit (`takeNumber_append`). Alone it is read up to a limit
(`readUpTo_padded`).
-/

namespace RunScheduler.Text

variable {rest : List Char}

theorem takeWhile_append_of_end {p : Char → Bool} {l : List Char} (hl : ∀ c ∈ l, p c = true)
    (hend : ∀ c ∈ rest.head?, p c = false) : (l ++ rest).takeWhile p = l := by
  rw [List.takeWhile_append_of_pos hl]
  cases rest with
  | nil => rw [List.takeWhile_nil, List.append_nil]
  | cons c rest => rw [List.takeWhile_cons_of_neg (by rw [hend c rfl]; decide), List.append_nil]

/-! ### Separators -/

theorem splitAt_eq_singleton {sep : Char} {s : List Char} (h : sep ∉ s) : splitAt sep s = [s] := by
  induction s with
  | nil => rfl
  | cons c s ih =>
    rw [List.mem_cons, not_or] at h
    rw [splitAt, if_neg (Ne.symm h.1), ih h.2]

theorem splitAt_append_cons {sep : Char} {s : List Char} (h : sep ∉ s) (rest : List Char) :
    splitAt sep (s ++ sep :: rest) = s :: splitAt sep rest := by
  induction s with
  | nil => rw [List.nil_append, splitAt, if_pos rfl]
  | cons c s ih =>
    rw [List.mem_cons, not_or] at h
    rw [List.cons_append, splitAt, if_neg (Ne.symm h.1), ih h.2]

theorem cutFirst_append_cons {sep : Char} {s : List Char} (h : sep ∉ s) (rest : List Char) :
    cutFirst sep (s ++ sep :: rest) = some (s, rest) := by
  induction s with
  | nil => rw [List.nil_append, cutFirst, if_pos rfl]
  | cons c s ih =>
    rw [List.mem_cons, not_or] at h
    rw [List.cons_append, cutFirst, if_neg (Ne.symm h.1), ih h.2]
    rfl

theorem cutLast_append_cons {sep : Char} {rest : List Char} (s : List Char) (h : sep ∉ rest) :
    cutLast sep (s ++ sep :: rest) = some (s, rest) := by
  have hreverse : (s ++ sep :: rest).reverse = rest.reverse ++ sep :: s.reverse := by simp
  rw [cutLast, hreverse, cutFirst_append_cons (List.mem_reverse.not.mpr h)]
  show some (s.reverse.reverse, rest.reverse.reverse) = some (s, rest)
  rw [List.reverse_reverse, List.reverse_reverse]

theorem after?_eq_none {c : Char} {beginning s : List Char} (h : ∀ d ∈ s.head?, d ≠ c) :
    after? (c :: beginning) s = none := by
  cases s with
  | nil => rfl
  | cons d s => rw [after?, if_neg (Ne.symm (h d rfl))]

/-- What stands behind the last separator of a text is determined by the text. -/
theorem append_cons_inj {sep : Char} {a b x y : List Char} (hx : sep ∉ x) (hy : sep ∉ y)
    (h : a ++ sep :: x = b ++ sep :: y) : a = b ∧ x = y := by
  have hrev := congrArg List.reverse h
  simp only [List.reverse_append, List.reverse_cons, List.append_assoc, List.cons_append,
    List.nil_append] at hrev
  have hsplit := congrArg (splitAt sep) hrev
  rw [splitAt_append_cons (List.mem_reverse.not.mpr hx),
    splitAt_append_cons (List.mem_reverse.not.mpr hy)] at hsplit
  have hxy : x = y := List.reverse_injective (List.cons.inj hsplit).1
  subst hxy
  exact ⟨List.append_cancel_right h, rfl⟩

/-! ### Hexadecimal digits -/

theorem length_hexDigits (width n : Nat) : (hexDigits width n).length = width := by
  induction width generalizing n with
  | zero => rfl
  | succ width ih => rw [hexDigits, List.length_append, ih, List.length_singleton]

theorem hexValue?_hexDigits (width n : Nat) :
    hexValue? (hexDigits width n) = some (n % 16 ^ width) := by
  induction width generalizing n with
  | zero => rw [Nat.pow_zero, Nat.mod_one]; rfl
  | succ width ih =>
    have hfront := ih (n / 16)
    rw [hexValue?] at hfront
    have hvalue : 16 * (n / 16 % 16 ^ width) + n % 16 = n % 16 ^ (width + 1) := by
      rw [Nat.pow_succ, Nat.mul_comm (16 ^ width) 16, Nat.mod_mul]
      omega
    rw [hexValue?, hexDigits, List.foldlM_append, hfront]
    simp [hexDigit?_hexChar (Nat.mod_lt n (by decide : 0 < 16)), hvalue]

theorem notMem_hexDigits {c : Char} (h : hexDigit? c = none) (width n : Nat) :
    c ∉ hexDigits width n := by
  induction width generalizing n with
  | zero => exact List.not_mem_nil
  | succ width ih =>
    rw [hexDigits, List.mem_append, List.mem_singleton, not_or]
    refine ⟨ih _, fun heq => ?_⟩
    rw [heq, hexDigit?_hexChar (Nat.mod_lt n (by decide))] at h
    cases h

/-! ### Decimal digits -/

theorem isDigit_of_mem_padded {width n : Nat} {c : Char} (h : c ∈ padded width n) :
    c.isDigit = true := by
  rw [padded, List.mem_append] at h
  rcases h with h | h
  · rw [List.eq_of_mem_replicate h]
    decide
  · exact Nat.isDigit_of_mem_toDigits (by decide) (by decide) h

theorem notMem_padded {c : Char} (h : c.isDigit = false) (width n : Nat) : c ∉ padded width n := by
  intro hmem
  rw [isDigit_of_mem_padded hmem] at h
  cases h

theorem length_padded {width n : Nat} (hwidth : 0 < width) (h : n < 10 ^ width) :
    (padded width n).length = width := by
  have hle : (Nat.toDigits 10 n).length ≤ width :=
    (Nat.length_toDigits_le_iff (by decide) hwidth).mpr h
  rw [padded, natText, List.length_append, List.length_replicate]
  omega

theorem digitsValue_padded (width n : Nat) : digitsValue (padded width n) = n := by
  have hzeros (k : Nat) (s : List Char) :
      digitsValue (List.replicate k '0' ++ s) = digitsValue s := by
    induction k with
    | zero => rfl
    | succ k ih => rw [← ih]; rfl
  rw [padded, hzeros, digitsValue_natText]

theorem padded_injective (width : Nat) : Function.Injective (padded width) := by
  intro n m h
  rw [← digitsValue_padded width n, h, digitsValue_padded]

theorem padded_append_inj {width n m : Nat} {x y : List Char}
    (hx : ∀ c ∈ x.head?, c.isDigit = false) (hy : ∀ c ∈ y.head?, c.isDigit = false)
    (h : padded width n ++ x = padded width m ++ y) : n = m ∧ x = y := by
  have hfront {k : Nat} {z : List Char} (hz : ∀ c ∈ z.head?, c.isDigit = false) :
      (padded width k ++ z).takeWhile Char.isDigit = padded width k :=
    takeWhile_append_of_end (fun c hc => isDigit_of_mem_padded hc) hz
  have htaken := congrArg (List.takeWhile Char.isDigit) h
  rw [hfront hx, hfront hy] at htaken
  rw [htaken] at h
  exact ⟨padded_injective width htaken, List.append_cancel_left h⟩

/-! ### Numbers that are read from the front -/

theorem isDigit_of_char {c : Char} (h : c.isDigit = true) : isDigit c = true := by
  rw [isDigit, digit?_of_isDigit h]
  rfl

theorem takeNumber_append {width : Nat} {digits : List Char} (hwidth : digits.length ≤ width)
    (hne : digits ≠ []) (hdigits : ∀ c ∈ digits, isDigit c = true)
    (hend : ∀ c ∈ (rest.take (width - digits.length)).head?, isDigit c = false) :
    takeNumber width (digits ++ rest) = some (digitsValue digits, rest) := by
  have hfront : ((digits ++ rest).take width).takeWhile isDigit = digits := by
    rw [List.take_append, List.take_of_length_le hwidth]
    exact takeWhile_append_of_end hdigits hend
  unfold takeNumber
  dsimp only
  rw [hfront, List.drop_left, if_neg (by rwa [List.isEmpty_iff])]

theorem padded_ne_nil (width n : Nat) : padded width n ≠ [] := by
  have hdigits : Nat.toDigits 10 n ≠ [] := Nat.toDigits_ne_nil
  exact List.append_ne_nil_of_right_ne_nil _ hdigits

theorem takeNumber_padded {width n : Nat} (hwidth : 0 < width) (h : n < 10 ^ width) :
    takeNumber width (padded width n ++ rest) = some (n, rest) := by
  have hlength := length_padded hwidth h
  rw [takeNumber_append (Nat.le_of_eq hlength) (padded_ne_nil width n)
    (fun c hc => isDigit_of_char (isDigit_of_mem_padded hc)) (by simp [hlength]),
    digitsValue_padded]

theorem isBlank_of_isDigit {c : Char} (h : c.isDigit = true) : isBlank c = false := by
  simp only [Char.isDigit, Bool.and_eq_true, decide_eq_true_eq] at h
  have hlow : 48 ≤ c.toNat := h.1
  have hhigh : c.toNat ≤ 57 := h.2
  simp [isBlank]
  omega

theorem isDigit_of_head?_padded {width n : Nat} {c : Char}
    (h : c ∈ (padded width n ++ rest).head?) : c.isDigit = true := by
  rw [List.head?_append_of_ne_nil _ (padded_ne_nil width n)] at h
  exact isDigit_of_mem_padded (List.mem_of_mem_head? h)

theorem trimStart_padded (width n : Nat) :
    trimStart (padded width n ++ rest) = padded width n ++ rest :=
  trimStart_eq_self fun _ hc => isBlank_of_isDigit (isDigit_of_head?_padded hc)

theorem le_foldl_digits (s : List Char) (m : Nat) :
    m ≤ s.foldl (fun n c => 10 * n + (digit? c).getD 0) m := by
  induction s generalizing m with
  | nil => exact Nat.le_refl m
  | cons c s ih =>
    have hfirst : m ≤ 10 * m + (digit? c).getD 0 := by omega
    exact Nat.le_trans hfirst (ih _)

theorem readUpTo_go_of_digits {max : Nat} {s : List Char} (hdigits : ∀ c ∈ s, c.isDigit = true)
    {m : Nat} (h : s.foldl (fun n c => 10 * n + (digit? c).getD 0) m ≤ max) :
    readUpTo.go max m s = .ok (s.foldl (fun n c => 10 * n + (digit? c).getD 0) m) := by
  induction s generalizing m with
  | nil => rfl
  | cons c s ih =>
    rw [List.forall_mem_cons] at hdigits
    rw [List.foldl_cons, digit?_of_isDigit hdigits.1, Option.getD_some] at h ⊢
    simp only [readUpTo.go, digit?_of_isDigit hdigits.1]
    rw [if_pos (Nat.le_trans (le_foldl_digits s _) h), ih hdigits.2 h]

theorem readUpTo_padded {max n : Nat} (h : n ≤ max) (width : Nat) :
    readUpTo max (padded width n) = .ok n := by
  have hvalue : (padded width n).foldl (fun n c => 10 * n + (digit? c).getD 0) 0 = n :=
    digitsValue_padded width n
  have hgo : readUpTo.go max 0 (padded width n) = .ok n := by
    rw [readUpTo_go_of_digits (fun c => isDigit_of_mem_padded) (by rwa [hvalue]), hvalue]
  have hplus : '+' ∉ padded width n := notMem_padded (by decide) width n
  have hminus : '-' ∉ padded width n := notMem_padded (by decide) width n
  have hne := padded_ne_nil width n
  revert hgo hplus hminus hne
  generalize padded width n = s
  intro hgo hplus hminus hne
  -- digits begin with no sign, so that the last case of the reader remains
  unfold readUpTo
  split
  · exact absurd rfl hne
  · exact absurd List.mem_cons_self hplus
  · exact absurd List.mem_cons_self hminus
  · exact absurd List.mem_cons_self hplus
  · exact hgo

theorem digitsValue_append_zeros (s : List Char) (k : Nat) :
    digitsValue (s ++ List.replicate k '0') = digitsValue s * 10 ^ k := by
  induction k with
  | zero => simp
  | succ k ih =>
    rw [List.replicate_succ', ← List.append_assoc]
    unfold digitsValue at ih ⊢
    rw [List.foldl_append, ih, Nat.pow_succ]
    show 10 * _ + 0 = _
    rw [Nat.add_zero, Nat.mul_comm 10, Nat.mul_assoc]

end RunScheduler.Text
