import Mathlib.Data.List.Basic
import QubitRouting.Number
import QubitRouting.Text.Row

/-!
Text that was printed reads back. A number is printed with digits that give it, words between
blanks are the words of a line, and lines that end in line breaks are the rows of a text when each
holds a word and starts with no comment mark.
-/

namespace QubitRouting.Text

section Numbers

theorem digitsValue_eq (digits : List Char) :
    digitsValue digits = Nat.ofDigitChars 10 digits 0 := by
  simp only [digitsValue, Nat.ofDigitChars_eq_foldl, Nat.mul_comm]

theorem isDigit_of_mem_toDigits {n : Nat} {c : Char} (h : c ∈ Nat.toDigits 10 n) :
    c.isDigit = true :=
  Nat.isDigit_of_mem_toDigits (by decide) (by decide) h

theorem unsigned_of_digits {digits : List Char} (h : ∀ c ∈ digits, c.isDigit = true) :
    unsigned digits = digits := by
  unfold unsigned
  split
  · exact absurd (h '+' List.mem_cons_self) (by decide)
  · rfl

theorem natBelow?_toDigits {bound n : Nat} (h : n < bound) :
    natBelow? bound (Nat.toDigits 10 n) = some n := by
  have hvalue : digitsValue (Nat.toDigits 10 n) = n := by
    rw [digitsValue_eq, Nat.ofDigitChars_ten_toDigits]
  have hdigits : (Nat.toDigits 10 n).all Char.isDigit = true := by
    rw [List.all_eq_true]
    exact fun c hc => isDigit_of_mem_toDigits hc
  simp [natBelow?, unsigned_of_digits (List.all_eq_true.1 hdigits), hvalue, hdigits, h]

end Numbers

section Runs

variable {separates : Char → Bool} {c : Char}

theorem splitAt_cons_of_separator (hc : separates c = true) (text : List Char) :
    splitAt separates (c :: text) = [] :: splitAt separates text := by
  simp [splitAt, consRun, hc]

theorem splitAt_ne_nil (separates : Char → Bool) (text : List Char) :
    splitAt separates text ≠ [] := by
  induction text with
  | nil => exact List.cons_ne_nil _ _
  | cons c text ih =>
    rw [splitAt, List.foldr_cons, ← splitAt]
    unfold consRun
    split_ifs
    · exact List.cons_ne_nil _ _
    · split <;> exact List.cons_ne_nil _ _

theorem splitAt_cons_of_solid (hc : separates c = false) {text first : List Char}
    {others : List (List Char)} (h : splitAt separates text = first :: others) :
    splitAt separates (c :: text) = (c :: first) :: others := by
  rw [splitAt, List.foldr_cons, ← splitAt, h]
  simp [consRun, hc]

theorem splitAt_of_forall {run : List Char} (h : ∀ c ∈ run, separates c = false) :
    splitAt separates run = [run] := by
  induction run with
  | nil => rfl
  | cons c run ih =>
    obtain ⟨hc, hrest⟩ := List.forall_mem_cons.1 h
    exact splitAt_cons_of_solid hc (ih hrest)

/-- A separator ends the run before it, whatever follows. -/
theorem splitAt_append_cons (hc : separates c = true) (run rest : List Char) :
    splitAt separates (run ++ c :: rest) =
      splitAt separates run ++ splitAt separates rest := by
  induction run with
  | nil => exact splitAt_cons_of_separator hc rest
  | cons d run ih =>
    cases hd : separates d with
    | true =>
      rw [List.cons_append, splitAt_cons_of_separator hd, ih, splitAt_cons_of_separator hd,
        List.cons_append]
    | false =>
      obtain ⟨first, others, heq⟩ := List.exists_cons_of_ne_nil (splitAt_ne_nil separates run)
      rw [heq, List.cons_append] at ih
      rw [List.cons_append, splitAt_cons_of_solid hd ih, splitAt_cons_of_solid hd heq,
        List.cons_append]

end Runs

section Words

/-- Characters without a blank, at least one of them, that start no comment. -/
structure IsWord (word : List Char) : Prop where
  ne_nil : word ≠ []
  solid : ∀ c ∈ word, isBlank c = false
  unmarked : word.head? ≠ some '#'

instance (word : List Char) : Decidable (IsWord word) :=
  -- Not by the instance for a quantifier over `Char`, which tries all characters there are.
  decidable_of_iff (word ≠ [] ∧ word.all (!isBlank ·) = true ∧ word.head? ≠ some '#')
    ⟨fun h => ⟨h.1, by simpa using h.2.1, h.2.2⟩,
      fun h => ⟨h.ne_nil, by simpa using h.solid, h.unmarked⟩⟩

theorem words_of_isWord {word : List Char} (h : IsWord word) : words word = [word] := by
  have hne : word.isEmpty = false := by simpa using h.ne_nil
  rw [words, splitAt_of_forall h.solid, List.filter_cons_of_pos (by simp [hne]), List.filter_nil]

theorem words_append_blank (text rest : List Char) {c : Char} (hc : isBlank c = true) :
    words (text ++ c :: rest) = words text ++ words rest := by
  rw [words, splitAt_append_cons hc, List.filter_append, words, words]

theorem words_intercalate (texts : List String) :
    words (" ".intercalate texts).toList = texts.flatMap fun text => words text.toList := by
  induction texts with
  | nil => rfl
  | cons text rest ih =>
    cases rest with
    | nil => rw [String.intercalate_singleton, List.flatMap_singleton]
    | cons next rest =>
      rw [String.intercalate_cons_cons, String.toList_append, String.toList_append,
        List.append_assoc, List.flatMap_cons, ← ih]
      exact words_append_blank text.toList _ (by decide)

theorem isBlank_of_isDigit {c : Char} (h : c.isDigit = true) : isBlank c = false := by
  have hrange : 48 ≤ c.toNat ∧ c.toNat ≤ 57 := by
    rw [Char.isDigit, Bool.and_eq_true, decide_eq_true_iff, decide_eq_true_iff] at h
    exact h
  simp only [isBlank, Bool.or_eq_false_iff, Bool.and_eq_false_iff, decide_eq_false_iff_not]
  omega

theorem isWord_toString (n : Nat) : IsWord (toString n).toList := by
  rw [Nat.toString_eq_repr, Nat.toList_repr]
  refine ⟨Nat.toDigits_ne_nil, fun _ hc => isBlank_of_isDigit (isDigit_of_mem_toDigits hc), ?_⟩
  intro hmark
  exact absurd (isDigit_of_mem_toDigits (List.mem_of_head? hmark)) (by decide)

theorem words_toString (n : Nat) : words (toString n).toList = [Nat.toDigits 10 n] := by
  rw [words_of_isWord (isWord_toString n), Nat.toString_eq_repr, Nat.toList_repr]

end Words

section Lines

theorem lines_of_printed {texts : List (List Char)} (h : ∀ text ∈ texts, '\n' ∉ text) :
    lines (texts.flatMap (· ++ ['\n'])) = texts := by
  have hsplit : splitAt (· = '\n') (texts.flatMap (· ++ ['\n'])) = texts ++ [[]] := by
    induction texts with
    | nil => rfl
    | cons text rest ih =>
      obtain ⟨htext, hrest⟩ := List.forall_mem_cons.1 h
      have hrun : splitAt (· = '\n') text = [text] := by
        apply splitAt_of_forall
        intro c hc
        simpa using fun e : c = '\n' => htext (e ▸ hc)
      rw [List.flatMap_cons, List.append_assoc, List.singleton_append,
        splitAt_append_cons (by decide), hrun, ih hrest]
      rfl
  simp [lines, hsplit]

/-- A line that starts with a character other than a blank holds a row unless that one is the
comment mark. -/
theorem isSignificant_cons {c : Char} (hb : isBlank c = false) (rest : List Char) :
    isSignificant (c :: rest) = decide (c ≠ '#') := by
  have hleft : trimLeft (c :: rest) = c :: rest := by simp [trimLeft, hb]
  have hright : ∃ kept, trimLeft (c :: rest).reverse = kept ++ [c] := by
    rw [List.reverse_cons, trimLeft, List.dropWhile_append]
    split_ifs
    · exact ⟨[], by simp [hb]⟩
    · exact ⟨_, rfl⟩
  obtain ⟨kept, hkept⟩ := hright
  rw [isSignificant, trim, hleft, hkept, List.reverse_append]
  rfl

structure IsRow (line : List Char) : Prop where
  unbroken : '\n' ∉ line
  starts : ∃ c rest, line = c :: rest ∧ isBlank c = false ∧ c ≠ '#'

theorem IsRow.isSignificant {line : List Char} (h : IsRow line) :
    isSignificant line = true := by
  obtain ⟨c, rest, rfl, hb, hm⟩ := h.starts
  rw [isSignificant_cons hb]
  exact decide_eq_true hm

theorem IsRow.intercalate {texts : List String} (hne : texts ≠ [])
    (h : ∀ text ∈ texts, IsRow text.toList) : IsRow (" ".intercalate texts).toList := by
  induction texts with
  | nil => exact absurd rfl hne
  | cons text rest ih =>
    obtain ⟨htext, hrest⟩ := List.forall_mem_cons.1 h
    cases rest with
    | nil => rwa [String.intercalate_singleton]
    | cons next rest =>
      have hrow := ih (List.cons_ne_nil _ _) hrest
      obtain ⟨c, others, heq, hb, hm⟩ := htext.starts
      rw [String.intercalate_cons_cons, String.toList_append, String.toList_append]
      constructor
      · simp only [List.mem_append, not_or]
        exact ⟨⟨htext.unbroken, by decide⟩, hrow.unbroken⟩
      · rw [heq]
        exact ⟨c, _, rfl, hb, hm⟩

theorem IsWord.isRow {word : List Char} (h : IsWord word) : IsRow word := by
  obtain ⟨c, rest, rfl⟩ := List.exists_cons_of_ne_nil h.ne_nil
  constructor
  · intro hbreak
    exact absurd (h.solid _ hbreak) (by decide)
  · refine ⟨c, rest, rfl, h.solid c List.mem_cons_self, ?_⟩
    rintro rfl
    exact h.unmarked rfl

theorem map_words_numberedRows (first : Nat) (texts : List (List Char)) :
    (numberedRows first texts).map Row.words = (texts.filter isSignificant).map words := by
  induction texts generalizing first with
  | nil => rfl
  | cons text rest ih =>
    unfold numberedRows
    cases hs : isSignificant text with
    | true => simp [hs, ih]
    | false => simp [hs, ih]

theorem map_words_ofText (text : String) :
    (Rows.ofText text).rows.map Row.words =
      ((lines text.toList).filter isSignificant).map words :=
  map_words_numberedRows 1 _

theorem rows_of_printed {texts : List String} (h : ∀ text ∈ texts, IsRow text.toList) :
    (Rows.ofText (String.join (texts.map (· ++ "\n")))).rows.map Row.words =
      texts.map fun text => words text.toList := by
  have hrow : ∀ line ∈ texts.map String.toList, IsRow line := List.forall_mem_map.2 h
  have htext : (String.join (texts.map (· ++ "\n"))).toList =
      (texts.map String.toList).flatMap (· ++ ['\n']) := by
    simp [String.toList_join, List.flatMap_map]
  rw [map_words_ofText, htext, lines_of_printed fun line hline => (hrow line hline).unbroken,
    List.filter_eq_self.2 fun line hline => (hrow line hline).isSignificant, List.map_map]
  rfl

end Lines

end QubitRouting.Text
