import QubitRouting.Proofs.Device.Description
import QubitRouting.Proofs.Text.Padding

/-!
The text format of graphs. A text is read as a graph exactly when its rows describe that graph: the
number of qubits, and the matrix row by row. The printed text of a graph describes it, so it reads
back, and what is put beside the rows of a text changes nothing.
-/

namespace QubitRouting.Graph

open Text (IsSquare Pads Rows Writes significantRows)

variable {n : Nat} {g : Graph} {text : String} {rows : List (List (List Char))}

/-- The rows are those of the graph: one with nothing but the number of its qubits, and the rows of
its matrix, as many of them as it has qubits. -/
def Describes (g : Graph) (rows : List (List (List Char))) : Prop :=
  ∃ word matrix, rows = [word] :: matrix ∧ Writes longBound word g.size ∧
    IsAdjacency g.size matrix ∧ g.Shown matrix

theorem parse_eq_ok_iff :
    parse text = .ok g ↔ countable g.size = true ∧ g.Describes (significantRows text) := by
  have htext := Text.map_words_ofText text
  rcases hr : Rows.ofText text with ⟨rows, lineCount⟩
  rw [hr] at htext
  rw [parse, hr, bind_eq_ok_iff]
  constructor
  · rintro ⟨⟨g', r⟩, hread, h⟩
    obtain ⟨_, hfinish, h⟩ := bind_eq_ok_iff.1 h
    obtain rfl := Except.ok.inj h
    obtain ⟨taken, rest, rfl, rfl, word, matrix, hwords, hn, hcount, hmatrix, hshown⟩ :=
      read_reads.sound hread
    obtain rfl : rest = [] := Rows.finish_eq_ok_iff.1 hfinish
    refine ⟨hcount, word, matrix, ?_, hn, hmatrix, hshown⟩
    rw [significantRows, ← htext, List.append_nil, hwords]
  · rintro ⟨hcount, word, matrix, hwords, hn, hmatrix, hshown⟩
    have hread := read_reads.take rows g
      ⟨word, matrix, htext.trans hwords, hn, hcount, hmatrix, hshown⟩ [] lineCount
    rw [List.append_nil] at hread
    exact ⟨_, hread, rfl⟩

theorem describes_text (h : Graph.countable g.size = true) :
    g.Describes (significantRows g.text) := by
  refine ⟨Nat.toDigits 10 g.size, g.matrixWords, ?_, ?_, g.isAdjacency_matrixWords,
    g.shown_matrixWords⟩
  · rw [significantRows, ← Text.map_words_ofText, text_eq, Text.rows_of_printed isRow_textRows,
      words_textRows]
  · exact Text.writes_toDigits (Nat.lt_trans (lt_of_countable h) (by decide))

/-- A graph that was made from edges, read from a text, or is that of a device known by name. -/
inductive Made : Graph → Prop
  | edges {n : Nat} {edges : List (Qubit × Qubit)} {g : Graph} (h : ofEdges n edges = .ok g) :
      Made g
  | text {text : String} {g : Graph} (h : parse text = .ok g) : Made g
  | architecture {a : Architecture} (h : a ∈ Architecture.all) : Made a.graph

theorem Made.countable (h : Made g) : Graph.countable g.size = true := by
  cases h with
  | edges h => exact countable_of_ofEdges h
  | text h => exact countable_of_parse h
  | architecture h => exact countable_of_mem_architectures h

/-- Every graph that can be made is read back from its text. A text, which is in memory, is read as
a graph exactly when its rows describe it. What is put beside the rows of any text changes nothing
about the graph that is read. -/
theorem text_format :
    (∀ g, Made g → parse g.text = .ok g) ∧
    (∀ text, fitsBlock 1 text.length = true →
      ∀ g, parse text = .ok g ↔ g.Describes (significantRows text)) ∧
    ∀ text padded : String, Relation.ReflTransGen Pads text.toList padded.toList →
      ∀ g, parse padded = .ok g ↔ parse text = .ok g := by
  refine ⟨fun g h => ?_, fun text hfits g => ?_, fun text padded h g => ?_⟩
  · exact parse_eq_ok_iff.2 ⟨h.countable, describes_text h.countable⟩
  · refine parse_eq_ok_iff.trans ⟨And.right, fun h => ⟨?_, h⟩⟩
    obtain ⟨_, matrix, hrows, -, hmatrix, -⟩ := h
    exact hmatrix.countable (hrows ▸ List.sublist_cons_self _ matrix) hfits
  · rw [parse_eq_ok_iff, parse_eq_ok_iff, Text.significantRows_of_padded h]

/-- The device without qubits, and one with two whose text is then written with a comment and
another blank. -/
theorem text_format_pair :
    (∃ g, ofEdges 0 [] = .ok g ∧ parse g.text = .ok g) ∧
    ∃ g, ofEdges 2 [(0, 1)] = .ok g ∧ parse g.text = .ok g ∧
      g.Describes (significantRows "2\n0 1\n0 0") ∧ parse "2\n0 1\n# two\n0  0" = .ok g := by
  obtain ⟨hprinted, hgrammar, hpadded⟩ := text_format
  have hlone : (ofEdges 0 []).isOk = true := by decide
  have hpair : ofEdges 2 [(0, 1)] = .ok (tabulate 2 fun c t => [(0, 1)].contains (c, t)) := rfl
  obtain ⟨g, hg⟩ := isOk_iff.1 hlone
  have hread : parse "2\n0 1\n0 0" = .ok (tabulate 2 fun c t => [(0, 1)].contains (c, t)) := by
    decide +kernel
  have hcomment : Pads "2\n0 1\n0 0".toList "2\n0 1\n# two\n0 0".toList :=
    .between "2\n0 1".toList "# two".toList "0 0".toList (by decide) (by decide)
  have hgap : ∀ b ∈ "2\n0 1\n# two\n0 ".toList.getLast?, Text.isBlank b = true := by
    have hlast : "2\n0 1\n# two\n0 ".toList.getLast? = some ' ' := by decide
    rw [hlast]
    rintro _ ⟨⟩
    rfl
  have hblank : Pads "2\n0 1\n# two\n0 0".toList "2\n0 1\n# two\n0  0".toList :=
    .blank "2\n0 1\n# two\n0 ".toList ['0'] (by decide) (by decide) (.inl hgap)
  refine ⟨⟨g, hg, hprinted g (.edges hg)⟩, _, hpair, hprinted _ (.edges hpair), ?_, ?_⟩
  · exact (hgrammar _ (by decide) _).1 hread
  · exact (hpadded _ _ (.tail (.single hcomment) hblank) _).2 hread

end QubitRouting.Graph
