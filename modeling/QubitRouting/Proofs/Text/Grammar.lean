import Mathlib.Algebra.Order.BigOperators.Group.List
import Mathlib.Algebra.Order.Ring.Nat
import QubitRouting.Proofs.Text.Rows

/-!
What a text writes, said without a way to read it: numbers by their digits, rows by their words and
squares of words by their positions. A text has as many characters as its rows have words, or more.
-/

namespace QubitRouting.Text

section Numbers

/-- The word writes a number below the bound: its decimal digits, with a plus sign in front of them
or without. -/
def Writes (bound : Nat) (word : List Char) (n : Nat) : Prop :=
  ∃ digits, (word = digits ∨ word = '+' :: digits) ∧ digits ≠ [] ∧
    (∀ c ∈ digits, c.isDigit = true) ∧ Nat.ofDigitChars 10 digits 0 = n ∧ n < bound

variable {bound n : Nat} {word : List Char}

theorem unsigned_cases (word : List Char) :
    word = unsigned word ∨ word = '+' :: unsigned word := by
  unfold unsigned
  split
  · exact Or.inr rfl
  · exact Or.inl rfl

theorem natBelow?_eq_some_iff : natBelow? bound word = some n ↔ Writes bound word n := by
  rw [natBelow?, Option.ite_none_right_eq_some, digitsValue_eq, List.all_eq_true]
  constructor
  · rintro ⟨⟨hne, hdigits, hlt⟩, hn⟩
    obtain rfl := Option.some.inj hn
    exact ⟨unsigned word, unsigned_cases word, hne, hdigits, rfl, hlt⟩
  · rintro ⟨digits, hword, hne, hdigits, rfl, hlt⟩
    have hunsigned : unsigned word = digits := by
      rcases hword with rfl | rfl
      · exact unsigned_of_digits hdigits
      · rfl
    rw [hunsigned]
    exact ⟨⟨hne, hdigits, hlt⟩, rfl⟩

theorem Writes.lt (h : Writes bound word n) : n < bound := by
  obtain ⟨_, _, _, _, _, hlt⟩ := h
  exact hlt

theorem Writes.unique {m : Nat} (h : Writes bound word n) (h' : Writes bound word m) : n = m :=
  Option.some.inj ((natBelow?_eq_some_iff.2 h).symm.trans (natBelow?_eq_some_iff.2 h'))

theorem writes_toDigits (h : n < bound) : Writes bound (Nat.toDigits 10 n) n :=
  natBelow?_eq_some_iff.1 (natBelow?_toDigits h)

end Numbers

section Rows

/-- The rows of a text: the words of the lines that are neither blank nor comments. -/
def significantRows (text : String) : List (List (List Char)) :=
  ((lines text.toList).filter isSignificant).map words

theorem sum_length_splitAt (separates : Char → Bool) (text : List Char) :
    ((splitAt separates text).map List.length).sum ≤ text.length := by
  induction text with
  | nil => exact Nat.le_refl 0
  | cons c text ih =>
    cases hc : separates c with
    | true =>
      rw [splitAt_cons_of_separator hc, List.map_cons, List.sum_cons, List.length_nil,
        List.length_cons]
      omega
    | false =>
      obtain ⟨first, others, heq⟩ := List.exists_cons_of_ne_nil (splitAt_ne_nil separates text)
      rw [heq, List.map_cons, List.sum_cons] at ih
      rw [splitAt_cons_of_solid hc heq, List.map_cons, List.sum_cons, List.length_cons,
        List.length_cons]
      omega

theorem length_words_le (line : List Char) : (words line).length ≤ line.length := by
  have hlong : ∀ n ∈ (words line).map List.length, 1 ≤ n := by
    refine List.forall_mem_map.2 fun word hword => List.length_pos_iff.2 ?_
    simpa using (List.mem_filter.1 hword).2
  calc (words line).length
      = ((words line).map List.length).length := (List.length_map _).symm
    _ ≤ ((words line).map List.length).sum := List.length_le_sum_of_one_le _ hlong
    _ ≤ ((splitAt isBlank line).map List.length).sum :=
      (List.filter_sublist.map _).sum_le_sum fun _ _ => Nat.zero_le _
    _ ≤ line.length := sum_length_splitAt _ _

theorem lines_sublist (text : List Char) : (lines text).Sublist (splitAt (· = '\n') text) := by
  unfold lines
  simp only
  split_ifs
  · exact List.dropLast_sublist _
  · exact List.Sublist.refl _

/-- A text has at least as many characters as its rows have words. -/
theorem sum_length_significantRows (text : String) :
    ((significantRows text).map List.length).sum ≤ text.length := by
  rw [significantRows, List.map_map, ← String.length_toList]
  calc (((lines text.toList).filter isSignificant).map (List.length ∘ words)).sum
      ≤ (((lines text.toList).filter isSignificant).map List.length).sum :=
      List.sum_le_sum fun line _ => length_words_le line
    _ ≤ ((splitAt (· = '\n') text.toList).map List.length).sum :=
      ((List.filter_sublist.trans (lines_sublist _)).map _).sum_le_sum fun _ _ => Nat.zero_le _
    _ ≤ text.toList.length := sum_length_splitAt _ _

end Rows

section Squares

variable {n i j : Nat} {rows : List (List (List Char))} {word : List Char}

def wordAt (rows : List (List (List Char))) (i j : Nat) : Option (List Char) :=
  rows[i]?.bind fun row => row[j]?

structure IsSquare (n : Nat) (rows : List (List (List Char))) : Prop where
  height : rows.length = n
  width : ∀ row ∈ rows, row.length = n

theorem IsSquare.lt_of_wordAt (h : IsSquare n rows) (hword : wordAt rows i j = some word) :
    i < n ∧ j < n := by
  obtain ⟨row, hrow, hword⟩ := Option.bind_eq_some_iff.1 hword
  obtain ⟨hi, -⟩ := List.getElem?_eq_some_iff.1 hrow
  obtain ⟨hj, -⟩ := List.getElem?_eq_some_iff.1 hword
  exact ⟨h.height ▸ hi, h.width row (List.mem_of_getElem? hrow) ▸ hj⟩

theorem IsSquare.exists_wordAt (h : IsSquare n rows) (hi : i < n) (hj : j < n) :
    ∃ word, wordAt rows i j = some word := by
  have hrow : i < rows.length := h.height.symm ▸ hi
  have hcolumn : j < rows[i].length := (h.width _ (List.getElem_mem hrow)).symm ▸ hj
  refine ⟨rows[i][j], ?_⟩
  rw [wordAt, List.getElem?_eq_getElem hrow, Option.bind_some, List.getElem?_eq_getElem hcolumn]

theorem IsSquare.sum_length (h : IsSquare n rows) : (rows.map List.length).sum = n * n := by
  rw [List.sum_eq_card_nsmul _ n (List.forall_mem_map.2 h.width), List.length_map, h.height,
    nsmul_eq_mul, Nat.cast_id]

theorem isSquare_table (n : Nat) (word : Nat → Nat → List Char) :
    IsSquare n ((List.range n).map fun i => (List.range n).map (word i)) := by
  constructor
  · rw [List.length_map, List.length_range]
  · refine List.forall_mem_map.2 fun i _ => ?_
    rw [List.length_map, List.length_range]

theorem wordAt_table_iff {entry : Nat → Nat → List Char} :
    wordAt ((List.range n).map fun i => (List.range n).map (entry i)) i j = some word ↔
      (i < n ∧ j < n) ∧ entry i j = word := by
  by_cases hi : i < n <;> by_cases hj : j < n <;> simp [wordAt, hi, hj]

end Squares

end QubitRouting.Text
