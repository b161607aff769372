import RunScheduler.Text.Blank

/-!
# Decimal numbers

Digits, their values, and the two ways numbers are written: shortest, and padded with zeros to a
width. Main fact: the digits written for a number have its value.
-/

namespace RunScheduler.Text

/-- The value of an ASCII digit. -/
def digit? (c : Char) : Option Nat :=
  if '0' ≤ c ∧ c ≤ '9' then some (c.toNat - '0'.toNat) else none

def isDigit (c : Char) : Bool :=
  (digit? c).isSome

/-- The value of a run of digits; a character that is no digit counts as zero. -/
def digitsValue (s : List Char) : Nat :=
  s.foldl (fun n c => 10 * n + (digit? c).getD 0) 0

/-- Up to `width` digits from the front, at least one, and what follows them. -/
def takeNumber (width : Nat) (s : List Char) : Option (Nat × List Char) :=
  let digits := (s.take width).takeWhile isDigit
  if digits.isEmpty then none else some (digitsValue digits, s.drop digits.length)

/-- The digits of `n`, without leading zeros. -/
def natText (n : Nat) : List Char :=
  Nat.toDigits 10 n

/-- The digits of `n`, with zeros in front up to `width` characters. -/
def padded (width n : Nat) : List Char :=
  List.replicate (width - (natText n).length) '0' ++ natText n

def intText (n : Int) : List Char :=
  if n < 0 then '-' :: natText n.natAbs else natText n.natAbs

/-! ## Numbers with a limit -/

/-- Why a text is no number below a limit. -/
inductive NumberError
  | empty
  | badDigit
  | tooLarge
deriving DecidableEq, Repr

def NumberError.message : NumberError → String
  | .empty => "cannot parse integer from empty string"
  | .badDigit => "invalid digit found in string"
  | .tooLarge => "number too large to fit in target type"

/-- Reads a number up to `max`: digits only, after at most one plus sign. A bad character is
reported before an excess of the limit only where it stands before the digit that exceeds it. -/
def readUpTo (max : Nat) (s : List Char) : Except NumberError Nat :=
  match s with
  | [] => .error .empty
  | ['+'] => .error .badDigit
  | ['-'] => .error .badDigit
  | '+' :: rest => go 0 rest
  | _ => go 0 s
where
  go (n : Nat) : List Char → Except NumberError Nat
    | [] => .ok n
    | c :: rest =>
      match digit? c with
      | none => .error .badDigit
      | some d => if 10 * n + d ≤ max then go (10 * n + d) rest else .error .tooLarge

/-! ## Small facts -/

theorem digit?_of_isDigit {c : Char} (h : c.isDigit = true) :
    digit? c = some (c.toNat - '0'.toNat) := by
  simp only [Char.isDigit, Bool.and_eq_true, decide_eq_true_eq] at h
  exact if_pos h

/-- The digits written for a number have its value. -/
theorem digitsValue_natText (n : Nat) : digitsValue (natText n) = n := by
  have fold (l : List Char) (hl : ∀ c ∈ l, c.isDigit = true) (m : Nat) :
      l.foldl (fun n c => 10 * n + (digit? c).getD 0) m = Nat.ofDigitChars 10 l m := by
    induction l generalizing m with
    | nil => rfl
    | cons c l ih =>
      rw [List.foldl_cons, Nat.ofDigitChars_cons, digit?_of_isDigit (hl c (by simp)),
        Option.getD_some]
      exact ih (fun d hd => hl d (by simp [hd])) _
  rw [digitsValue, natText,
    fold _ fun c hc => Nat.isDigit_of_mem_toDigits (by decide) (by decide) hc]
  exact Nat.ofDigitChars_toDigits (by decide) (by decide)

end RunScheduler.Text
