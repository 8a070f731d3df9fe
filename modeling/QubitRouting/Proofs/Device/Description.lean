import QubitRouting.Device.Architecture
import QubitRouting.Proofs.Device.Grammar

/-!
The text of a graph, printed. Its rows are those of the size and of the matrix, and the matrix shows
the graph. No graph is made whose matrix does not fit memory.
-/

namespace QubitRouting

namespace Graph

open Text (words words_toString words_intercalate IsRow)

variable {g : Graph}

/-- A matrix that fits one block of memory has fewer qubits than there are words. -/
theorem lt_of_countable {n : Nat} (h : countable n = true) : n < wordBound := by
  by_contra hn
  have hsquare : wordBound * wordBound ≤ n * n :=
    Nat.mul_le_mul (Nat.not_lt.1 hn) (Nat.not_lt.1 hn)
  have := of_decide_eq_true h
  rw [wordBound] at hsquare
  rw [longBound] at this
  omega

section Countable

theorem countable_of_ofEdges {n : Nat} {edges : List (Qubit × Qubit)}
    (h : ofEdges n edges = .ok g) : countable g.size = true := by
  unfold ofEdges at h
  split_ifs at h with hn
  split at h
  · cases h
  · obtain rfl := Except.ok.inj h
    simpa using hn

theorem countable_of_read {r r' : Text.Rows} (h : read r = .ok (g, r')) :
    countable g.size = true := by
  obtain ⟨_, _, _, _, _, _, _, _, hcount, _⟩ := read_reads.sound h
  exact hcount

theorem countable_of_parse {text : String} (h : parse text = .ok g) :
    countable g.size = true := by
  obtain ⟨⟨g', rest⟩, hread, h⟩ := bind_eq_ok_iff.1 h
  obtain ⟨_, -, h⟩ := bind_eq_ok_iff.1 h
  obtain rfl := Except.ok.inj h
  exact countable_of_read hread

theorem countable_of_mem_architectures {a : Architecture} (h : a ∈ Architecture.all) :
    countable a.graph.size = true := by
  have hall : ∀ a ∈ Architecture.all, countable a.size = true := by decide
  exact hall a h

end Countable

def entryWord (g : Graph) (c t : Qubit) : List Char := if g.adjacent c t then ['1'] else ['0']

def matrixWords (g : Graph) : List (List (List Char)) :=
  g.qubits.map fun c => g.qubits.map (g.entryWord c)

theorem entryWord_eq_one_iff {c t : Qubit} : g.entryWord c t = ['1'] ↔ g.adjacent c t = true := by
  cases h : g.adjacent c t <;> simp [entryWord, h]

theorem isAdjacency_matrixWords (g : Graph) : IsAdjacency g.size g.matrixWords := by
  refine ⟨Text.isSquare_table _ _, fun c t word hword => ?_⟩
  obtain ⟨-, rfl⟩ := Text.wordAt_table_iff.1 hword
  cases h : g.adjacent c t with
  | false => exact Or.inl (by simp [entryWord, h])
  | true =>
    refine Or.inr ⟨entryWord_eq_one_iff.2 h, ?_⟩
    rintro rfl
    rw [g.adjacent_self] at h
    cases h

theorem shown_matrixWords (g : Graph) : g.Shown g.matrixWords := by
  intro c t
  refine Iff.trans ?_ Text.wordAt_table_iff.symm
  rw [entryWord_eq_one_iff]
  exact ⟨fun h => ⟨lt_of_adjacent h, h⟩, And.right⟩

def textRows (g : Graph) : List String :=
  toString g.size :: g.qubits.map fun c =>
    " ".intercalate (g.qubits.map fun t => if g.adjacent c t then "1" else "0")

theorem text_eq (g : Graph) : g.text = String.join (g.textRows.map (· ++ "\n")) := rfl

theorem isRow_textRows : ∀ row ∈ g.textRows, IsRow row.toList := by
  refine List.forall_mem_cons.2 ⟨(Text.isWord_toString g.size).isRow, List.forall_mem_map.2 ?_⟩
  intro c hc
  have hne : g.qubits ≠ [] := List.ne_nil_of_mem hc
  refine IsRow.intercalate (by simpa using hne) (List.forall_mem_map.2 fun t _ => ?_)
  apply Text.IsWord.isRow
  split_ifs <;> decide

theorem words_textRows : g.textRows.map (fun row => words row.toList) =
    [Nat.toDigits 10 g.size] :: g.matrixWords := by
  rw [textRows, List.map_cons, words_toString, List.map_map, matrixWords]
  refine congrArg _ (List.map_congr_left fun c _ => ?_)
  rw [Function.comp_apply, words_intercalate, List.flatMap_map, List.map_eq_flatMap]
  refine congrArg (List.flatMap · _) (funext fun t => ?_)
  unfold entryWord
  split_ifs <;> decide

end Graph

end QubitRouting
