import RunScheduler.Proofs.Text
import RunScheduler.RunId

/-!
# Ids as text

The text of an id has 36 characters (`length_toText`) and reads back as the id
(`ofString?_toString`), so that no two ids have the same text (`toString_injective`). There is no
bar in it (`bar_notMem_toText`).
-/

namespace RunScheduler.RunId

open Text

theorem length_toText (id : RunId) : id.toText.length = 36 := by
  simp [toText, hyphenate, digits, length_hexDigits]

theorem splitAt_hyphenate {s : List Char} (h : '-' ∉ s) :
    splitAt '-' (hyphenate s) =
      [s.take 8, (s.drop 8).take 4, (s.drop 12).take 4, (s.drop 16).take 4, s.drop 20] := by
  have htake (n m : Nat) : '-' ∉ (s.drop n).take m := fun hmem =>
    h (List.mem_of_mem_drop (List.mem_of_mem_take hmem))
  have hdrop (n : Nat) : '-' ∉ s.drop n := fun hmem => h (List.mem_of_mem_drop hmem)
  have hfirst : '-' ∉ s.take 8 := fun hmem => h (List.mem_of_mem_take hmem)
  simp only [hyphenate, List.append_assoc, List.cons_append]
  rw [splitAt_append_cons hfirst, splitAt_append_cons (htake 8 4),
    splitAt_append_cons (htake 12 4), splitAt_append_cons (htake 16 4),
    splitAt_eq_singleton (hdrop 20)]

theorem flatten_groups (s : List Char) :
    [s.take 8, (s.drop 8).take 4, (s.drop 12).take 4, (s.drop 16).take 4, s.drop 20].flatten =
      s := by
  have hstep (n m : Nat) : (s.drop n).take m ++ s.drop (n + m) = s.drop n := by
    rw [← List.drop_drop, List.take_append_drop]
  simp only [List.flatten_cons, List.flatten_nil, List.append_nil]
  rw [hstep 16 4, hstep 12 4, hstep 8 4, List.take_append_drop]

theorem ofDigits?_digits (id : RunId) : ofDigits? id.digits = some id := by
  rw [ofDigits?, digits, if_pos (length_hexDigits 32 _), hexValue?_hexDigits,
    Nat.mod_eq_of_lt (by exact id.bits.isLt)]
  simp

theorem ofString?_toString (id : RunId) : ofString? id.toString = some id := by
  have hnot : '-' ∉ id.digits := notMem_hexDigits (by decide) 32 _
  have hlength : id.digits.length = 32 := length_hexDigits 32 _
  rw [ofString?, toString, String.toList_ofList, ofText?, length_toText, if_neg (by decide),
    if_pos rfl, ofHyphenated?, toText, splitAt_hyphenate hnot, if_pos (by simp [hlength]),
    flatten_groups, ofDigits?_digits]

theorem toString_injective : Function.Injective toString := by
  intro a b h
  have hread := ofString?_toString a
  rw [h, ofString?_toString] at hread
  exact (Option.some.inj hread).symm

theorem mem_toText {id : RunId} {c : Char} (h : c ∈ id.toText) : c ∈ id.digits ∨ c = '-' := by
  simp only [toText, hyphenate, List.mem_append, List.mem_cons] at h
  rcases h with ((((h | h | h) | h | h) | h | h) | h | h)
  · exact Or.inl (List.mem_of_mem_take h)
  · exact Or.inr h
  · exact Or.inl (List.mem_of_mem_drop (List.mem_of_mem_take h))
  · exact Or.inr h
  · exact Or.inl (List.mem_of_mem_drop (List.mem_of_mem_take h))
  · exact Or.inr h
  · exact Or.inl (List.mem_of_mem_drop (List.mem_of_mem_take h))
  · exact Or.inr h
  · exact Or.inl (List.mem_of_mem_drop h)

theorem bar_notMem_toText (id : RunId) : '|' ∉ id.toText := by
  intro h
  rcases mem_toText h with hdigit | heq
  · exact notMem_hexDigits (by decide) 32 _ hdigit
  · exact absurd heq (by decide)

end RunScheduler.RunId
