/-!
# Cutting texts apart

Splitting at a character, at its first or at its last place, and taking a beginning off. Main
fact: a beginning is taken off a text that was put together with it.
-/

namespace RunScheduler.Text

/-- The pieces between the places of `sep`; one more than there are such places. -/
def splitAt (sep : Char) : List Char → List (List Char)
  | [] => [[]]
  | c :: rest =>
    if c = sep then [] :: splitAt sep rest
    else
      match splitAt sep rest with
      | [] => [[c]]
      | piece :: pieces => (c :: piece) :: pieces

/-- What stands before and after the first `sep`. -/
def cutFirst (sep : Char) : List Char → Option (List Char × List Char)
  | [] => none
  | c :: rest =>
    if c = sep then some ([], rest)
    else (cutFirst sep rest).map fun (before, after) => (c :: before, after)

/-- What stands before and after the last `sep`. -/
def cutLast (sep : Char) (s : List Char) : Option (List Char × List Char) :=
  (cutFirst sep s.reverse).map fun (after, before) => (before.reverse, after.reverse)

/-- The text after `beginning`, if it begins so. -/
def after? : (beginning s : List Char) → Option (List Char)
  | [], s => some s
  | _ :: _, [] => none
  | c :: beginning, d :: s => if c = d then after? beginning s else none

/-- The pieces with `sep` between each two. -/
def joinWith (sep : List Char) : List (List Char) → List Char
  | [] => []
  | [piece] => piece
  | piece :: pieces => piece ++ sep ++ joinWith sep pieces

/-- The text without a last `c`, or the text itself. -/
def dropFinal (c : Char) (s : List Char) : List Char :=
  if s.getLast? = some c then s.dropLast else s

theorem length_le_of_after? {a s t : List Char} (h : after? a s = some t) :
    t.length ≤ s.length := by
  induction a generalizing s with
  | nil =>
    cases h
    exact Nat.le_refl _
  | cons c a ih =>
    cases s with
    | nil => simp [after?] at h
    | cons d s =>
      simp only [after?] at h
      split at h
      · exact Nat.le_succ_of_le (ih h)
      · simp at h

/-- Every non-overlapping place of `old`, from the left, replaced by `new`. An empty `old` has no
place. -/
def replaceAll (old new : List Char) : List Char → List Char
  | [] => []
  | c :: rest =>
    if old.head? = some c then
      match h : after? old.tail rest with
      | some tail =>
        have : tail.length ≤ rest.length := length_le_of_after? h
        new ++ replaceAll old new tail
      | none => c :: replaceAll old new rest
    else c :: replaceAll old new rest
termination_by s => s.length
decreasing_by
  · exact Nat.lt_succ_of_le this
  · exact Nat.lt_succ_self _
  · exact Nat.lt_succ_self _

/-! ## Small facts -/

theorem after?_append (a s : List Char) : after? a (a ++ s) = some s := by
  induction a with
  | nil => rfl
  | cons c a ih => simp [after?, ih]

end RunScheduler.Text
