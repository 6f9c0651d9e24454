import Mathlib.Data.List.DropRight
import Mathlib.Data.List.TakeWhile

/-!
# Padded and delimited text

What is found of a text between padding, and in front of and behind a delimiter.
Padding and delimiters are predicates on the elements, which are of any type.
-/
namespace YcsbCloud.Library.Delimited

variable {α : Type*}

/-- The text without the padding at its two ends. -/
def trim (padding : α → Bool) (text : List α) : List α :=
  (text.dropWhile padding).rdropWhile padding

/-- A trimmed text has no padding at either end. -/
theorem trim_eq_self {padding : α → Bool} {text : List α} (trimmed : trim padding text = text) :
    text.dropWhile padding = text ∧ text.rdropWhile padding = text := by
  have front := List.dropWhile_suffix (l := text) padding
  have back := List.rdropWhile_prefix padding (text.dropWhile padding)
  have length := back.length_le
  rw [← trim, trimmed] at length
  have same := front.eq_of_length_le length
  refine ⟨same, ?_⟩
  rw [trim, same] at trimmed
  exact trimmed

/-- Padding put around a trimmed text is taken off again. -/
theorem trim_padded {padding : α → Bool} {before text after : List α}
    (left : ∀ a ∈ before, padding a) (trimmed : trim padding text = text)
    (right : ∀ a ∈ after, padding a) : trim padding (before ++ text ++ after) = text := by
  obtain ⟨front, back⟩ := trim_eq_self trimmed
  rw [trim, List.append_assoc, List.dropWhile_append_of_pos left]
  cases text with
  | nil => rw [List.nil_append, List.dropWhile_eq_nil_iff.mpr right, List.rdropWhile_nil]
  | cons a rest =>
    have bare : ¬ padding a := by
      intro padded
      have shorter := (List.dropWhile_suffix (l := rest) padding).length_le
      rw [List.dropWhile_cons_of_pos padded] at front
      rw [front, List.length_cons] at shorter
      omega
    rw [List.cons_append, List.dropWhile_cons_of_neg bare, ← List.cons_append, List.rdropWhile,
      List.reverse_append, List.dropWhile_append_of_pos (by simpa using right)]
    exact back

/-- The first delimiter is behind what has none. -/
theorem findIdx?_delimited (delimiter : α → Bool) {left rest : List α} {d : α}
    (clean : ∀ a ∈ left, ¬ delimiter a) (delimits : delimiter d) :
    (left ++ d :: rest).findIdx? delimiter = some left.length := by
  have absent : left.findIdx? delimiter = none :=
    List.findIdx?_eq_none_iff.mpr (by simpa using clean)
  simp [List.findIdx?_append, absent, List.findIdx?_cons, delimits]

end YcsbCloud.Library.Delimited
