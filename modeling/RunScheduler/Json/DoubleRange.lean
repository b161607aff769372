import RunScheduler.Text.Decimal

/-!
# The range of double precision

Whether a number in decimal notation can be held in double precision at all. It is found from as
many digits as 64 bits hold, and from a power of ten, both rounded before they are multiplied.
-/

namespace RunScheduler.Json

open Text

/-- The nearest number with 53 significant bits; of two that are as near, the even one. -/
def roundToDouble (n : Nat) : Nat :=
  let shift := n.log2 - 52
  let down := n >>> shift
  let left := n - down <<< shift
  let half := (1 <<< shift) >>> 1
  if shift = 0 ∨ left < half ∨ (left = half ∧ down % 2 = 0) then down <<< shift
  else (down + 1) <<< shift

/-- The least number that is rounded to infinity. -/
def doubleLimit : Nat :=
  1 <<< 1024 - 1 <<< 970

/-- Puts digits behind a number as far as 64 bits hold it, and gives those that are left. -/
def appendDigits (n : Nat) : List Char → Nat × List Char
  | [] => (n, [])
  | c :: rest =>
    let m := 10 * n + (digit? c).getD 0
    if m < 1 <<< 64 then appendDigits m rest else (n, c :: rest)

/-- Whether a number with these digits before and after its point and this exponent can be held.
A digit before the point that is left out counts as a zero. -/
def isInDoubleRange (whole fraction : List Char) (exponent : Int) : Bool :=
  let (n, wholeLeft) := appendDigits 0 whole
  let (n, fractionLeft) := appendDigits n fraction
  let exponent := exponent + wholeLeft.length - (fraction.length - fractionLeft.length : Nat)
  n = 0 ∨ exponent < 0 ∨
    (exponent ≤ 308 ∧ roundToDouble n * roundToDouble (Nat.pow 10 exponent.toNat) < doubleLimit)

end RunScheduler.Json
