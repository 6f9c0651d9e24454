import Mathlib.Algebra.Order.Ring.Nat

/-!
# Runs of zeros

Counts are written as words: a negative word stands for that many zeros in a row, any other
word for one count.
-/
namespace YcsbCloud.Library.RunLength

/-- The counts a word stands for. -/
def unfold (word : ℤ) : List ℕ :=
  if word < 0 then List.replicate word.natAbs 0 else [word.toNat]

def expand (words : List ℤ) : List ℕ := words.flatMap unfold

/-- Zeros in front of words, as one word with the zeros that the words begin with. -/
def addZeros (zeros : ℕ) : List ℤ → List ℤ
  | [] => [-zeros]
  | word :: rest => if word < 0 then (word - zeros) :: rest else -zeros :: word :: rest

/-- The words of counts, no two of which in a row stand for zeros. -/
def words : List ℕ → List ℤ
  | [] => []
  | count :: rest => if count = 0 then addZeros 1 (words rest) else count :: words rest

theorem expand_cons (word : ℤ) (rest : List ℤ) :
    expand (word :: rest) = unfold word ++ expand rest := List.flatMap_cons

theorem unfold_neg {zeros : ℕ} (positive : 0 < zeros) :
    unfold (-zeros) = List.replicate zeros 0 := by
  rw [unfold, if_pos (by omega), Int.natAbs_neg, Int.natAbs_natCast]

theorem unfold_natCast (count : ℕ) : unfold count = [count] := by
  rw [unfold, if_neg (by omega), Int.toNat_natCast]

theorem expand_addZeros {zeros : ℕ} (positive : 0 < zeros) (ws : List ℤ) :
    expand (addZeros zeros ws) = List.replicate zeros 0 ++ expand ws := by
  cases ws with
  | nil => rw [addZeros, expand_cons, unfold_neg positive]
  | cons word rest =>
    rw [addZeros]
    split
    next negative =>
      rw [expand_cons, expand_cons, unfold, unfold, if_pos negative, if_pos (by omega),
        ← List.append_assoc, List.replicate_append_replicate]
      congr 2
      omega
    next _ => rw [expand_cons, unfold_neg positive]

/-- The words of counts stand for them. -/
theorem expand_words (counts : List ℕ) : expand (words counts) = counts := by
  induction counts with
  | nil => rfl
  | cons count rest ih =>
    rw [words]
    split
    next zero =>
      rw [expand_addZeros Nat.one_pos, ih, zero, List.replicate_one, List.singleton_append]
    next _ => rw [expand_cons, unfold_natCast, ih, List.singleton_append]

theorem addZeros_addZeros {more : ℕ} (positive : 0 < more) (zeros : ℕ) (ws : List ℤ) :
    addZeros zeros (addZeros more ws) = addZeros (zeros + more) ws := by
  cases ws with
  | nil =>
    rw [addZeros, addZeros, addZeros, if_pos (by omega)]
    congr 1
    omega
  | cons word rest =>
    rw [addZeros, addZeros]
    split
    next negative =>
      rw [addZeros, if_pos (by omega)]
      congr 1
      omega
    next _ =>
      rw [addZeros, if_pos (by omega)]
      congr 1
      omega

theorem length_addZeros_le (zeros : ℕ) (ws : List ℤ) :
    (addZeros zeros ws).length ≤ ws.length + 1 := by
  cases ws with
  | nil => exact Nat.le_refl 1
  | cons word rest =>
    rw [addZeros]
    split
    · exact Nat.le_succ _
    · exact Nat.le_refl _

/-- There are no more words than counts. -/
theorem length_words_le (counts : List ℕ) : (words counts).length ≤ counts.length := by
  induction counts with
  | nil => exact Nat.le_refl 0
  | cons count rest ih =>
    rw [words]
    split
    · exact Nat.le_trans (length_addZeros_le ..) (Nat.succ_le_succ ih)
    · exact Nat.succ_le_succ ih

theorem length_unfold_pos (word : ℤ) : 0 < (unfold word).length := by
  rw [unfold]
  split
  · rw [List.length_replicate]
    omega
  · exact Nat.one_pos

/-- No word stands for more zeros than the words stand for counts. -/
theorem natAbs_le_of_mem {ws : List ℤ} {word : ℤ} (member : word ∈ ws) (negative : word < 0) :
    word.natAbs ≤ (expand ws).length := by
  have part : unfold word ∈ ws.map unfold := List.mem_map_of_mem member
  have := List.Sublist.length_le (List.sublist_flatten_of_mem part)
  rwa [unfold, if_pos negative, List.length_replicate] at this

theorem toNat_mem_of_mem {ws : List ℤ} {word : ℤ} (member : word ∈ ws) (positive : ¬ word < 0) :
    word.toNat ∈ expand ws := by
  refine List.mem_flatMap.mpr ⟨word, member, ?_⟩
  rw [unfold, if_neg positive]
  exact List.mem_singleton.mpr rfl

end YcsbCloud.Library.RunLength
