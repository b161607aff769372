/-!
# Lazy finite lists

A list whose rest is computed when it is asked for. Every lazy list ends, so it has the same
elements as a list (`toList`), and what is taken of it is what is taken of that list: the main
facts say so for `filter`, `takeWhile`, `take`, `prepend` and `firsts`.
-/

namespace RunScheduler

inductive LazyList (α : Type) where
  | nil
  | cons (head : α) (tail : Unit → LazyList α)

namespace LazyList

variable {α : Type}

def toList : LazyList α → List α
  | nil => []
  | cons a t => a :: (t ()).toList

def filter (p : α → Bool) : LazyList α → LazyList α
  | nil => nil
  | cons a t => if p a then cons a fun _ => (t ()).filter p else (t ()).filter p

def takeWhile (p : α → Bool) : LazyList α → LazyList α
  | nil => nil
  | cons a t => if p a then cons a fun _ => (t ()).takeWhile p else nil

def take : Nat → LazyList α → LazyList α
  | 0, _ => nil
  | _ + 1, nil => nil
  | n + 1, cons a t => cons a fun _ => (t ()).take n

/-- The elements of `l` in front of a lazy list. -/
def prepend : (l : List α) → (Unit → LazyList α) → LazyList α
  | [], rest => rest ()
  | a :: l, rest => cons a fun _ => prepend l rest

/-- The first `n` elements, or all if there are fewer. -/
def firsts (n : Nat) (s : LazyList α) : List α :=
  go n s []
where
  go : Nat → LazyList α → List α → List α
    | 0, _, found => found.reverse
    | _ + 1, nil, found => found.reverse
    | n + 1, cons a t, found => go n (t ()) (a :: found)

/-! ## The elements -/

@[simp] theorem toList_nil : (nil : LazyList α).toList = [] := rfl

@[simp] theorem toList_cons (a : α) (t : Unit → LazyList α) :
    (cons a t).toList = a :: (t ()).toList := rfl

@[simp] theorem toList_filter (p : α → Bool) (s : LazyList α) :
    (s.filter p).toList = s.toList.filter p := by
  induction s with
  | nil => rfl
  | cons a t ih =>
    simp only [filter, toList_cons, List.filter_cons]
    split <;> simp [ih]

@[simp] theorem toList_takeWhile (p : α → Bool) (s : LazyList α) :
    (s.takeWhile p).toList = s.toList.takeWhile p := by
  induction s with
  | nil => rfl
  | cons a t ih =>
    simp only [takeWhile, toList_cons, List.takeWhile_cons]
    split <;> simp [ih]

@[simp] theorem toList_take (n : Nat) (s : LazyList α) :
    (s.take n).toList = s.toList.take n := by
  induction s generalizing n with
  | nil => cases n <;> rfl
  | cons a t ih => cases n <;> simp [take, ih]

@[simp] theorem toList_prepend (l : List α) (rest : Unit → LazyList α) :
    (prepend l rest).toList = l ++ (rest ()).toList := by
  induction l with
  | nil => rfl
  | cons a l ih => simp [prepend, ih]

theorem firsts_go (n : Nat) (s : LazyList α) (found : List α) :
    firsts.go n s found = found.reverse ++ s.toList.take n := by
  induction s generalizing n found with
  | nil => cases n <;> simp [firsts.go]
  | cons a t ih => cases n <;> simp [firsts.go, ih]

@[simp] theorem firsts_eq (n : Nat) (s : LazyList α) : s.firsts n = s.toList.take n := by
  simp [firsts, firsts_go]

end LazyList

end RunScheduler
