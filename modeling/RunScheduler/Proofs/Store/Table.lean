import Mathlib.Data.List.Nodup
import Mathlib.Data.String.Basic
import Mathlib.Order.RelClasses
import RunScheduler.RunId
import RunScheduler.Store.Table

/-!
# Tables in the order of their keys

Storing and erasing keep a table in the order of its keys (`Ordered.insert`, `Ordered.erase`). In
such a table the entries are exactly what look-ups find (`mem_entries_iff`), and no key occurs
twice (`Ordered.nodup_keys`).
-/

namespace RunScheduler

namespace RunId

/-- Ids are ordered as the numbers they are, so any two are comparable. -/
instance : IsStrictTotalOrder RunId (· < ·) where
  irrefl a := Nat.lt_irrefl a.bits.toNat
  trans _ _ _ := Nat.lt_trans
  trichotomous a b hab hba := by
    obtain ⟨a⟩ := a
    obtain ⟨b⟩ := b
    have heq : a.toNat = b.toNat := Nat.le_antisymm (Nat.not_lt.mp hba) (Nat.not_lt.mp hab)
    rw [BitVec.eq_of_toNat_eq heq]

end RunId

namespace Table

variable {κ α : Type} [LT κ] [DecidableLT κ] [DecidableEq κ]

/-! ### The order of the entries -/

/-- The keys ascend. -/
def Ordered (t : Table κ α) : Prop :=
  t.entries.Pairwise fun a b => a.1 < b.1

omit [DecidableLT κ] [DecidableEq κ] in
theorem Ordered.empty : (⟨[]⟩ : Table κ α).Ordered := List.Pairwise.nil

theorem mem_insertEntry {k : κ} {a : α} {e : κ × α} {l : List (κ × α)}
    (h : e ∈ insertEntry k a l) : e = (k, a) ∨ e ∈ l := by
  induction l with
  | nil => exact Or.inl (List.mem_singleton.mp h)
  | cons e' l ih =>
    rw [insertEntry] at h
    split_ifs at h with heq hlt
    · rcases List.mem_cons.mp h with h | h
      · exact Or.inl h
      · exact Or.inr (List.mem_cons_of_mem _ h)
    · exact List.mem_cons.mp h
    · rcases List.mem_cons.mp h with rfl | h
      · exact Or.inr List.mem_cons_self
      · exact (ih h).imp_right (List.mem_cons_of_mem _)

variable [IsStrictTotalOrder κ (· < ·)]

theorem pairwise_insertEntry (k : κ) (a : α) {l : List (κ × α)}
    (h : l.Pairwise fun a b => a.1 < b.1) :
    (insertEntry k a l).Pairwise fun a b => a.1 < b.1 := by
  induction l with
  | nil => simp [insertEntry]
  | cons e l ih =>
    have hfirst : ∀ e' ∈ l, e.1 < e'.1 := fun _ hmem => List.rel_of_pairwise_cons h hmem
    rw [insertEntry]
    split_ifs with heq hlt
    · subst heq
      exact h.of_cons.cons hfirst
    · refine h.cons fun e' hmem => ?_
      rcases List.mem_cons.mp hmem with rfl | hmem
      · exact hlt
      · exact IsTrans.trans _ _ _ hlt (hfirst e' hmem)
    · refine (ih h.of_cons).cons fun e' hmem => ?_
      rcases mem_insertEntry hmem with rfl | hmem
      · rcases trichotomous_of (· < ·) k e.1 with h | h | h
        · exact absurd h hlt
        · exact absurd h heq
        · exact h
      · exact hfirst e' hmem

theorem Ordered.insert {t : Table κ α} (h : t.Ordered) (k : κ) (a : α) :
    (t.insert k a).Ordered :=
  pairwise_insertEntry k a h

omit [DecidableLT κ] [IsStrictTotalOrder κ (· < ·)] in
theorem Ordered.erase {t : Table κ α} (h : t.Ordered) (k : κ) : (t.erase k).Ordered :=
  h.filter _

/-! ### Entries and look-ups -/

omit [DecidableLT κ] [DecidableEq κ] in
theorem Ordered.nodup_keys {t : Table κ α} (h : t.Ordered) : t.keys.Nodup := by
  refine List.pairwise_map.mpr (h.imp fun {a b} hlt heq => ?_)
  rw [heq] at hlt
  exact irrefl_of (· < ·) b.1 hlt

omit [DecidableLT κ] in
/-- A look-up finds an entry exactly where there is one: no entry hides another. -/
theorem mem_entries_iff {t : Table κ α} (h : t.Ordered) {k : κ} {a : α} :
    (k, a) ∈ t.entries ↔ t.get? k = some a := by
  rw [get?, Option.map_eq_some_iff]
  constructor
  · intro hmem
    obtain ⟨e, he⟩ : ∃ e, t.entries.find? (fun e => e.1 = k) = some e := by
      rw [← Option.isSome_iff_exists, List.find?_isSome]
      exact ⟨(k, a), hmem, decide_eq_true rfl⟩
    have hkey : e.1 = k := by simpa using List.find?_some he
    have heq := List.inj_on_of_nodup_map h.nodup_keys (List.mem_of_find?_eq_some he) hmem hkey
    exact ⟨e, he, by rw [heq]⟩
  · rintro ⟨⟨k', a'⟩, he, rfl⟩
    have hkey : k' = k := by simpa using List.find?_some he
    rw [← hkey]
    exact List.mem_of_find?_eq_some he

omit [DecidableLT κ] in
theorem mem_values_iff {t : Table κ α} (h : t.Ordered) {a : α} :
    a ∈ t.values ↔ ∃ k, t.get? k = some a := by
  simp only [values, List.mem_map, Prod.exists, exists_eq_right, mem_entries_iff h]

omit [IsStrictTotalOrder κ (· < ·)] in
theorem length_insertEntry {k : κ} (a : α) {l : List (κ × α)} (h : ∀ e ∈ l, e.1 ≠ k) :
    (insertEntry k a l).length = l.length + 1 := by
  induction l with
  | nil => rfl
  | cons e l ih =>
    rw [insertEntry, if_neg (h e List.mem_cons_self).symm]
    split_ifs
    · rfl
    · rw [List.length_cons, ih fun e' hmem => h e' (List.mem_cons_of_mem _ hmem),
        List.length_cons]

omit [IsStrictTotalOrder κ (· < ·)] in
theorem length_insert {t : Table κ α} {k : κ} (h : t.get? k = none) (a : α) :
    (t.insert k a).entries.length = t.entries.length + 1 := by
  refine length_insertEntry a fun e hmem heq => ?_
  rw [get?, Option.map_eq_none_iff, List.find?_eq_none] at h
  exact h e hmem (decide_eq_true heq)

end Table

end RunScheduler
