import Mathlib.Data.List.Induction
import Mathlib.Logic.Relation
import QubitRouting.Proofs.Text.Grammar

/-!
What may be put into a text without changing its rows: lines that are blank or comments, and blanks
beside other blanks or at the ends. Words are split at every blank, whatever stands around it, and
whether a line holds a row can be told from its words; so only the words of the lines matter.
-/

namespace QubitRouting.Text

section Lines

variable {c : Char} {text rest line : List Char}

theorem words_cons_blank (hc : isBlank c = true) (text : List Char) :
    words (c :: text) = words text :=
  words_append_blank [] text hc

/-- Words are those of the two parts wherever a text is cut beside a blank or at one of its ends. -/
theorem words_append_of_gap
    (h : (∀ b ∈ text.getLast?, isBlank b = true) ∨ ∀ b ∈ rest.head?, isBlank b = true) :
    words (text ++ rest) = words text ++ words rest := by
  rcases h with h | h
  · rcases List.eq_nil_or_concat text with rfl | ⟨front, b, rfl⟩
    · rfl
    · have hb : isBlank b = true := h b (by simp)
      rw [List.concat_eq_append, List.append_assoc, List.singleton_append,
        words_append_blank _ _ hb, words_append_blank _ _ hb]
      exact congrArg (· ++ _) (List.append_nil _).symm
  · cases rest with
    | nil => rw [List.append_nil]; exact (List.append_nil _).symm
    | cons b rest =>
      have hb : isBlank b = true := h b rfl
      rw [words_append_blank _ _ hb, words_cons_blank hb]

theorem words_cons_solid (hc : isBlank c = false) (text : List Char) :
    ∃ word others, words (c :: text) = (c :: word) :: others := by
  obtain ⟨first, others, heq⟩ := List.exists_cons_of_ne_nil (splitAt_ne_nil isBlank text)
  refine ⟨first, others.filter (!·.isEmpty), ?_⟩
  rw [words, splitAt_cons_of_solid hc heq]
  rfl

/-- A line holds a row when it has words and the first of them starts no comment. -/
theorem isSignificant_eq (line : List Char) :
    isSignificant line = (words line).head?.any (·.head? ≠ some '#') := by
  induction line with
  | nil => rfl
  | cons c line ih =>
    cases hc : isBlank c with
    | true =>
      have htrim : trimLeft (c :: line) = trimLeft line := by simp [trimLeft, hc]
      rw [words_cons_blank hc, ← ih, isSignificant, isSignificant, trim, htrim, trim]
    | false =>
      obtain ⟨word, others, hwords⟩ := words_cons_solid hc line
      rw [isSignificant_cons hc, hwords]
      simp

theorem isSignificant_congr (h : words text = words line) :
    isSignificant text = isSignificant line := by
  rw [isSignificant_eq, isSignificant_eq, h]

/-- An empty line at the end makes no difference, so the rows are those of all runs between line
breaks. -/
theorem significantRows_eq (text : String) : significantRows text =
    ((splitAt (· = '\n') text.toList).filter isSignificant).map words := by
  have hlast : (lines text.toList).filter isSignificant =
      (splitAt (· = '\n') text.toList).filter isSignificant := by
    unfold lines
    simp only
    split_ifs with h
    · conv_rhs => rw [← List.dropLast_append_getLast? [] h]
      rw [List.filter_append]
      exact (List.append_nil _).symm
    · rfl
  rw [significantRows, hlast]

end Lines

section Around

variable {separates : Char → Bool}

theorem exists_run_before (separates : Char → Bool) (before : List Char) :
    ∃ runs run, run <:+ before ∧ (∀ c ∈ run, separates c = false) ∧
      ∀ rest, splitAt separates (before ++ rest) = runs ++ splitAt separates (run ++ rest) := by
  induction before using List.reverseRecOn with
  | nil => exact ⟨[], [], List.suffix_refl _, fun _ h => (List.not_mem_nil h).elim, fun _ => rfl⟩
  | append_singleton before c ih =>
    cases hc : separates c with
    | true =>
      refine ⟨splitAt separates before, [], List.nil_suffix, fun _ h => (List.not_mem_nil h).elim,
        fun rest => ?_⟩
      rw [List.append_assoc, List.singleton_append, splitAt_append_cons hc, List.nil_append]
    | false =>
      obtain ⟨runs, run, ⟨front, rfl⟩, hsolid, hsplit⟩ := ih
      refine ⟨runs, run ++ [c], ⟨front, (List.append_assoc ..).symm⟩, ?_, fun rest => ?_⟩
      · exact List.forall_mem_append.2 ⟨hsolid, List.forall_mem_singleton.2 hc⟩
      · rw [List.append_assoc, hsplit, List.append_assoc]

theorem exists_run_after (separates : Char → Bool) (after : List Char) :
    ∃ run runs, run <+: after ∧ ∀ front, (∀ c ∈ front, separates c = false) →
      splitAt separates (front ++ after) = (front ++ run) :: runs := by
  induction after with
  | nil =>
    refine ⟨[], [], List.prefix_refl _, fun front hfront => ?_⟩
    rw [List.append_nil, splitAt_of_forall hfront]
  | cons c after ih =>
    cases hc : separates c with
    | true =>
      refine ⟨[], splitAt separates after, List.nil_prefix, fun front hfront => ?_⟩
      rw [splitAt_append_cons hc, splitAt_of_forall hfront, List.append_nil, List.singleton_append]
    | false =>
      obtain ⟨run, runs, ⟨back, rfl⟩, hsplit⟩ := ih
      refine ⟨c :: run, runs, ⟨back, rfl⟩, fun front hfront => ?_⟩
      have hlonger := hsplit (front ++ [c])
        (List.forall_mem_append.2 ⟨hfront, List.forall_mem_singleton.2 hc⟩)
      rwa [List.append_assoc, List.append_assoc] at hlonger

/-- What is put into a text comes into the run that is there, as long as it has no separator. -/
theorem exists_run_around (separates : Char → Bool) (before after : List Char) :
    ∃ runs left right others, left <:+ before ∧ right <+: after ∧
      ∀ middle, (∀ c ∈ middle, separates c = false) →
        splitAt separates (before ++ (middle ++ after)) =
          runs ++ (left ++ (middle ++ right)) :: others := by
  obtain ⟨runs, left, hleft, hsolid, hbefore⟩ := exists_run_before separates before
  obtain ⟨right, others, hright, hafter⟩ := exists_run_after separates after
  refine ⟨runs, left, right, others, hleft, hright, fun middle hmiddle => ?_⟩
  have hfront := hafter (left ++ middle) (List.forall_mem_append.2 ⟨hsolid, hmiddle⟩)
  rw [List.append_assoc, List.append_assoc] at hfront
  rw [hbefore, hfront]

end Around

/-- One insertion beside the rows of a text: a line without a row, before, between or after other
lines, or a blank beside another blank or at an end of the text. -/
inductive Pads : List Char → List Char → Prop
  | first (line after : List Char) : '\n' ∉ line → isSignificant line = false →
      Pads after (line ++ '\n' :: after)
  | between (before line after : List Char) : '\n' ∉ line → isSignificant line = false →
      Pads (before ++ '\n' :: after) (before ++ '\n' :: (line ++ '\n' :: after))
  | last (before line : List Char) : '\n' ∉ line → isSignificant line = false →
      Pads before (before ++ '\n' :: line)
  | blank (before after : List Char) {c : Char} : isBlank c = true → c ≠ '\n' →
      (∀ b ∈ before.getLast?, isBlank b = true) ∨ (∀ b ∈ after.head?, isBlank b = true) →
      Pads (before ++ after) (before ++ c :: after)

section Padding

variable {line : List Char}

theorem splitAt_line (h : '\n' ∉ line) : splitAt (· = '\n') line = [line] :=
  splitAt_of_forall fun c hc => by simpa using fun e : c = '\n' => h (e ▸ hc)

theorem words_insert_blank {before after left right : List Char} {c : Char}
    (hc : isBlank c = true) (hleft : left <:+ before) (hright : right <+: after)
    (h : (∀ b ∈ before.getLast?, isBlank b = true) ∨ ∀ b ∈ after.head?, isBlank b = true) :
    words (left ++ c :: right) = words (left ++ right) := by
  obtain ⟨front, rfl⟩ := hleft
  obtain ⟨back, rfl⟩ := hright
  have hgap : (∀ b ∈ left.getLast?, isBlank b = true) ∨ ∀ b ∈ right.head?, isBlank b = true := by
    refine h.imp (fun h b hb => h b ?_) fun h b hb => h b ?_
    · rw [List.getLast?_append, Option.mem_def.1 hb, Option.some_or]
      rfl
    · rw [List.head?_append, Option.mem_def.1 hb, Option.some_or]
      rfl
  rw [words_append_blank _ _ hc, words_append_of_gap hgap]

/-- The rows of a text do not change with what is put beside them. -/
theorem significantRows_of_pads {text padded : String} (h : Pads text.toList padded.toList) :
    significantRows padded = significantRows text := by
  rw [significantRows_eq, significantRows_eq]
  generalize text.toList = chars at h
  generalize padded.toList = chars' at h
  cases h with
  | first line after hline hnone =>
    rw [splitAt_append_cons (by decide), splitAt_line hline, List.filter_append,
      List.filter_cons_of_neg (by simp [hnone])]
    rfl
  | between before line after hline hnone =>
    rw [splitAt_append_cons (by decide), splitAt_append_cons (by decide),
      splitAt_append_cons (by decide), splitAt_line hline, List.filter_append, List.filter_append,
      List.filter_append, List.filter_cons_of_neg (by simp [hnone])]
    rfl
  | last before line hline hnone =>
    rw [splitAt_append_cons (by decide), splitAt_line hline, List.filter_append,
      List.filter_cons_of_neg (by simp [hnone]), List.filter_nil, List.append_nil]
  | @blank before after c hc hbreak hgap =>
    obtain ⟨runs, left, right, others, hleft, hright, hsplit⟩ :=
      exists_run_around (· = '\n') before after
    have hwords := words_insert_blank hc hleft hright hgap
    have hplain := hsplit [] fun _ h => (List.not_mem_nil h).elim
    have hpadded := hsplit [c] (List.forall_mem_singleton.2 (decide_eq_false hbreak))
    simp only [List.nil_append, List.singleton_append] at hplain hpadded
    rw [hplain, hpadded, List.filter_append, List.filter_append, List.filter_cons, List.filter_cons,
      isSignificant_congr hwords]
    cases isSignificant (left ++ right) <;> simp [hwords]

/-- Nor do they change with any number of insertions, one after the other. -/
theorem significantRows_of_padded {text padded : String}
    (h : Relation.ReflTransGen Pads text.toList padded.toList) :
    significantRows padded = significantRows text := by
  have hall : ∀ chars, Relation.ReflTransGen Pads text.toList chars →
      significantRows (String.ofList chars) = significantRows text := by
    intro chars h
    induction h with
    | refl => rw [String.ofList_toList]
    | @tail between chars _ hpad ih =>
      rw [← ih]
      exact significantRows_of_pads (by rwa [String.toList_ofList, String.toList_ofList])
  rw [← hall _ h, String.ofList_toList]

end Padding

end QubitRouting.Text
