/-!
# Tables

Values under keys, in the order of the keys, each key at most once. Main facts: a look-up finds
what was stored last under its key, and other keys are not touched by storing or erasing.
-/

namespace RunScheduler

structure Table (κ α : Type) where
  entries : List (κ × α) := []

namespace Table

variable {κ α : Type} [LT κ] [DecidableLT κ] [DecidableEq κ]

def get? (t : Table κ α) (k : κ) : Option α :=
  (t.entries.find? fun e => e.1 = k).map (·.2)

def contains (t : Table κ α) (k : κ) : Bool :=
  t.entries.any fun e => decide (e.1 = k)

/-- Puts an entry at its place among entries in the order of their keys. -/
def insertEntry (k : κ) (a : α) : List (κ × α) → List (κ × α)
  | [] => [(k, a)]
  | e :: l =>
    if k = e.1 then (k, a) :: l
    else if k < e.1 then (k, a) :: e :: l
    else e :: insertEntry k a l

/-- Stores a value under a key, in place of one stored there before. -/
def insert (t : Table κ α) (k : κ) (a : α) : Table κ α :=
  ⟨insertEntry k a t.entries⟩

def erase (t : Table κ α) (k : κ) : Table κ α :=
  ⟨t.entries.filter fun e => e.1 ≠ k⟩

def keys (t : Table κ α) : List κ := t.entries.map (·.1)

def values (t : Table κ α) : List α := t.entries.map (·.2)

/-- The entries with keys from one bound up to, but not at, another. -/
def range (t : Table κ α) (first stop : κ) : List (κ × α) :=
  t.entries.filter fun e => !decide (e.1 < first) && decide (e.1 < stop)

/-- The entries with keys after one. -/
def after (t : Table κ α) (k : κ) : List (κ × α) :=
  t.entries.filter fun e => k < e.1

/-! ## Small facts -/

theorem find?_insertEntry (k : κ) (a : α) (k' : κ) (l : List (κ × α)) :
    (insertEntry k a l).find? (fun e => e.1 = k') =
      if k = k' then some (k, a) else l.find? (fun e => e.1 = k') := by
  induction l with
  | nil => by_cases h : k = k' <;> simp [insertEntry, h]
  | cons e l ih =>
    simp only [insertEntry]
    split
    · rename_i hk
      by_cases h : k = k'
      · simp [h]
      · have : ¬ e.1 = k' := fun he => h (hk.trans he)
        simp [h, this]
    · split
      · by_cases h : k = k' <;> simp [h]
      · rename_i hk _
        by_cases he : e.1 = k'
        · have : ¬ k = k' := fun h => hk (h.trans he.symm)
          simp [he, this]
        · simp [he, ih]

theorem get?_insert (t : Table κ α) (k k' : κ) (a : α) :
    (t.insert k a).get? k' = if k = k' then some a else t.get? k' := by
  unfold get? insert
  rw [find?_insertEntry]
  split <;> simp

omit [LT κ] [DecidableLT κ] in
theorem find?_filter_ne (k k' : κ) (l : List (κ × α)) :
    (l.filter fun e => e.1 ≠ k).find? (fun e => e.1 = k') =
      if k = k' then none else l.find? (fun e => e.1 = k') := by
  induction l with
  | nil => simp
  | cons e l ih =>
    rw [List.filter_cons]
    by_cases he : e.1 = k
    · subst he
      rw [if_neg (by simp), ih]
      split
      · rfl
      · rename_i h; simp [h]
    · rw [if_pos (by simpa using he), List.find?_cons, List.find?_cons, ih]
      by_cases he' : e.1 = k'
      · have hk : ¬ k = k' := fun h => he (he'.trans h.symm)
        simp [he', hk]
      · simp [he']

omit [LT κ] [DecidableLT κ] in
theorem get?_erase (t : Table κ α) (k k' : κ) :
    (t.erase k).get? k' = if k = k' then none else t.get? k' := by
  unfold get? erase
  rw [find?_filter_ne]
  split <;> simp

omit [LT κ] [DecidableLT κ] in
theorem contains_eq (t : Table κ α) (k : κ) : t.contains k = (t.get? k).isSome := by
  unfold contains get?
  rw [Option.isSome_map, Bool.eq_iff_iff, List.find?_isSome, List.any_eq_true]

end Table

end RunScheduler
