import QubitRouting.Proofs.Device.Grammar
import QubitRouting.Proofs.Table.Entries
import QubitRouting.Table.Cache

/-!
The grammar of the text of a table, said without the reader: the row of the size, the rows of the
graph, the rows of the costs, and a row for the path of each ordered pair. A text is read exactly
when its rows are of the grammar, and the table that is read holds what they write; one row fewer or
one row more is no text of a table.
-/

namespace QubitRouting

namespace Move

variable {name : String} {shape : Shape} {operands : List Qubit} {m : Move}

theorem exists_shape (m : Move) : ∃ shape, Shape.ofName? m.name = some shape ∧
    shape.arity = m.qubits.length ∧ shape.withOperands? m.qubits = some m := by
  have hparts := ofParts?_name_qubits m
  rw [ofParts?] at hparts
  obtain ⟨shape, hshape, hm⟩ := Option.bind_eq_some_iff.1 hparts
  refine ⟨shape, hshape, ?_, hm⟩
  cases m with
  | relay r =>
    obtain ⟨carried, heading, undoing, a, b⟩ := r
    cases carried <;> cases heading <;> cases undoing <;> cases hshape <;> rfl
  | _ => cases hshape; rfl

theorem name_of_shape (hname : Shape.ofName? name = some shape)
    (hm : shape.withOperands? operands = some m) : m.name = name := by
  unfold Shape.ofName? at hname
  split at hname <;> cases hname <;>
    rcases operands with _ | ⟨a, _ | ⟨b, _ | ⟨c, _ | _⟩⟩⟩ <;> cases hm <;> rfl

theorem qubits_of_withOperands? (h : shape.withOperands? operands = some m) :
    m.qubits = operands := by
  unfold Shape.withOperands? at h
  split at h <;> cases h <;> rfl

end Move

namespace RoutingTable

open QubitRouting.Graph (countable IsAdjacency)
open Text (IsSquare Rows Writes significantRows wordAt)

section Paths

/-- The words write a move of a device: its name, and a number of the device for each operand. -/
def WritesMove (size : Nat) (words : List (List Char)) (m : Move) : Prop :=
  ∃ operands, words = m.name.toList :: operands ∧
    List.Forall₂ (fun word q => Writes wordBound word q ∧ q < size) operands m.qubits

def WritesPath (size : Nat) (row : List (List Char)) (p : Path) : Prop :=
  p ≠ [] ∧ ∃ groups, row = pathMarker.toList :: groups.flatten ∧
    List.Forall₂ (WritesMove size) groups p

variable {line size : Nat} {word : List Char} {words : List (List Char)} {p : Path}

theorem readNumber_eq_ok_iff {n : Nat} :
    readNumber line word = .ok n ↔ Writes wordBound word n := by
  rw [← Text.natBelow?_eq_some_iff, readNumber, Text.word?]
  split <;> simp_all

theorem readOperand_eq_ok_iff (word : List Char) (q : Qubit) :
    readOperand line size word = .ok q ↔ Writes wordBound word q ∧ q < size := by
  rw [readOperand, bind_eq_ok_iff]
  constructor
  · rintro ⟨n, hn, h⟩
    split_ifs at h with hlt
    obtain rfl := Except.ok.inj h
    exact ⟨readNumber_eq_ok_iff.1 hn, hlt⟩
  · rintro ⟨hq, hlt⟩
    exact ⟨q, readNumber_eq_ok_iff.2 hq, if_pos hlt⟩

/-- Moves are read by taking the words of one move after the other. -/
theorem readMoves_cons_eq_ok_iff : readMoves line size (word :: words) = .ok p ↔
    ∃ operands after m others, words = operands ++ after ∧
      WritesMove size (word :: operands) m ∧ readMoves line size after = .ok others ∧
      p = m :: others := by
  constructor
  · intro h
    rw [readMoves] at h
    split at h
    · cases h
    next shape hshape =>
    split_ifs at h with harity
    obtain ⟨operands, hoperands, h⟩ := bind_eq_ok_iff.1 h
    split at h
    · cases h
    next m hm =>
    obtain ⟨others, hothers, h⟩ := bind_eq_ok_iff.1 h
    obtain rfl := Except.ok.inj h
    refine ⟨words.take shape.arity, words.drop shape.arity, m, others,
      (List.take_append_drop _ _).symm, ⟨words.take shape.arity, ?_, ?_⟩, hothers, rfl⟩
    · rw [Move.name_of_shape hshape hm, String.toList_ofList]
    · rw [Move.qubits_of_withOperands? hm]
      exact (mapM_eq_ok_iff readOperand_eq_ok_iff).1 hoperands
  · rintro ⟨operands, after, m, others, rfl, ⟨_, hwords, hoperands⟩, hothers, rfl⟩
    obtain ⟨rfl, rfl⟩ := List.cons.inj hwords
    obtain ⟨shape, hshape, harity, hm⟩ := m.exists_shape
    have hlen : operands.length = shape.arity := hoperands.length_eq.trans harity.symm
    rw [readMoves, String.ofList_toList]
    simp only [hshape]
    rw [if_neg (by rw [List.length_append, hlen]; omega), ← hlen, List.take_left, List.drop_left,
      (mapM_eq_ok_iff readOperand_eq_ok_iff).2 hoperands, ok_bind, hm, hothers]
    rfl

theorem readMoves_eq_ok_iff : readMoves line size words = .ok p ↔
    ∃ groups, words = groups.flatten ∧ List.Forall₂ (WritesMove size) groups p := by
  constructor
  · intro h
    induction hlen : words.length using Nat.strong_induction_on generalizing words p with
    | _ length ih =>
      subst hlen
      cases words with
      | nil =>
        rw [readMoves] at h
        obtain rfl := Except.ok.inj h
        exact ⟨[], rfl, .nil⟩
      | cons word words =>
        obtain ⟨operands, after, m, others, rfl, hm, hothers, rfl⟩ := readMoves_cons_eq_ok_iff.1 h
        have hshorter : after.length < (word :: (operands ++ after)).length := by
          rw [List.length_cons, List.length_append]
          omega
        obtain ⟨groups, rfl, hgroups⟩ := ih _ hshorter hothers rfl
        exact ⟨(word :: operands) :: groups, rfl, .cons hm hgroups⟩
  · rintro ⟨groups, rfl, hgroups⟩
    induction hgroups with
    | nil => rw [List.flatten_nil, readMoves]
    | cons hm _ ih =>
      obtain ⟨operands, rfl, hoperands⟩ := hm
      exact readMoves_cons_eq_ok_iff.2
        ⟨operands, _, _, _, rfl, ⟨operands, rfl, hoperands⟩, ih, rfl⟩

theorem readPath_eq_ok_iff : readPath line size words = .ok p ↔ WritesPath size words p := by
  cases words with
  | nil => simp [readPath, WritesPath]
  | cons word rest =>
    rw [readPath]
    constructor
    · intro h
      split_ifs at h with hmarker hrest
      obtain ⟨groups, rfl, hgroups⟩ := readMoves_eq_ok_iff.1 h
      refine ⟨?_, groups, congrArg (· :: _) (not_not.1 hmarker), hgroups⟩
      rintro rfl
      obtain rfl := List.forall₂_nil_right_iff.1 hgroups
      exact hrest rfl
    · rintro ⟨hne, groups, hrow, hgroups⟩
      obtain ⟨rfl, rfl⟩ := List.cons.inj hrow
      have hrest : groups.flatten ≠ [] := by
        cases hgroups with
        | nil => exact absurd rfl hne
        | cons hm _ =>
          obtain ⟨operands, rfl, -⟩ := hm
          exact List.cons_ne_nil _ _
      rw [if_neg (not_not.2 rfl), if_neg hrest, readMoves_eq_ok_iff]
      exact ⟨groups, rfl, hgroups⟩

def costIn (costs : Array (Array Nat)) (p : Qubit × Qubit) : Nat :=
  ((costs[p.1]?.getD #[])[p.2]?).getD 0

theorem readEntries_reads (size : Nat) (costs : Array (Array Nat)) (pairs : List (Qubit × Qubit)) :
    Rows.Reads (readEntries size costs pairs) fun taken es =>
      List.Forall₂ (fun row x => WritesPath size row x.2.path) (taken.map Text.Row.words) es.1 ∧
      ∀ x ∈ es.1, x.2.cost = costIn costs x.1 := by
  induction pairs with
  | nil =>
    constructor
    · intro rows lineCount es r h
      obtain ⟨rfl, rfl⟩ := Prod.mk.inj (Except.ok.inj h)
      exact ⟨[], rows, rfl, rfl, .nil, fun _ h => (List.not_mem_nil h).elim⟩
    · rintro taken ⟨es, hes⟩ ⟨hpaths, -⟩ rest lineCount
      obtain rfl := List.map_eq_nil_iff.1 hes
      obtain rfl := List.map_eq_nil_iff.1 (List.forall₂_nil_right_iff.1 hpaths)
      rfl
  | cons pair pairs ih =>
    obtain ⟨v, w⟩ := pair
    constructor
    · intro rows lineCount es r h
      rw [readEntries, bind_eq_ok_iff] at h
      obtain ⟨⟨row, r₁⟩, hrow, h⟩ := h
      obtain ⟨p, hp, h⟩ := bind_eq_ok_iff.1 h
      obtain ⟨⟨others, r₂⟩, hothers, h⟩ := bind_eq_ok_iff.1 h
      obtain ⟨rfl, rfl⟩ := Prod.mk.inj (Except.ok.inj h)
      obtain ⟨_, rest, rfl, rfl, rfl⟩ := (Rows.next_reads .path).sound hrow
      obtain ⟨taken, rest, rfl, rfl, hpaths, hcosts⟩ := ih.sound hothers
      exact ⟨row :: taken, rest, rfl, rfl, .cons (readPath_eq_ok_iff.1 hp) hpaths,
        List.forall_mem_cons.2 ⟨rfl, hcosts⟩⟩
    · rintro taken ⟨es, hes⟩ ⟨hpaths, hcosts⟩ rest lineCount
      obtain ⟨⟨_, cost, p⟩, others, rfl, rfl, hothers⟩ := List.map_eq_cons_iff.1 hes
      obtain ⟨_, _, hp, hafter, htaken⟩ := List.forall₂_cons_right_iff.1 hpaths
      obtain ⟨row, taken, rfl, rfl, rfl⟩ := List.map_eq_cons_iff.1 htaken
      obtain ⟨hcost, hprices⟩ := List.forall_mem_cons.1 hcosts
      obtain rfl : cost = costIn costs (v, w) := hcost
      have hread := ih.take taken ⟨others, hothers⟩ ⟨hafter, hprices⟩ rest lineCount
      rw [readEntries, List.cons_append]
      simp only [Rows.next, ok_bind, readPath_eq_ok_iff.2 hp, hread]
      rfl

end Paths

section Contents

/-- The rows of the text of a table on `n` qubits: the row of the size, the rows of the graph, the
rows of the costs, and one row for the path of each ordered pair. -/
structure CacheRows (n : Nat) where
  header : List Char
  adjacency : List (List (List Char))
  costs : List (List (List Char))
  paths : List (List (List Char))
  header_writes : Writes longBound header n
  isAdjacency : IsAdjacency n adjacency
  costs_square : IsSquare n costs
  costs_write : ∀ v w word, wordAt costs v w = some word → ∃ cost, Writes wordBound word cost
  length_paths : paths.length = n * (n - 1)
  paths_write : ∀ row ∈ paths, ∃ p, WritesPath n row p

def CacheRows.rows {n : Nat} (c : CacheRows n) : List (List (List Char)) :=
  [c.header] :: (c.adjacency ++ (c.costs ++ c.paths))

/-- The table holds what the rows write: the graph, the cost of each of its entries, and their paths
in the order of the entries, which is that of the ordered pairs row by row. -/
structure CacheRows.Holds {n : Nat} (c : CacheRows n) (t : RoutingTable) : Prop where
  size : t.size = n
  graph : t.graph.Shown c.adjacency
  costs : ∀ x ∈ t.entries, ∃ word, wordAt c.costs x.1.1 x.1.2 = some word ∧
    Writes wordBound word x.2.cost
  paths : List.Forall₂ (fun row x => WritesPath n row x.2.path) c.paths t.entries

variable {n : Nat} {t : RoutingTable} {text : String}

theorem CacheRows.length_rows (c : CacheRows n) : c.rows.length = n * n + n + 1 := by
  have hsquare : n * (n - 1) + n = n * n := by
    cases n with
    | zero => rfl
    | succ n => rw [Nat.add_sub_cancel, ← Nat.mul_succ]
  rw [rows, List.length_cons, List.length_append, List.length_append, c.isAdjacency.square.height,
    c.costs_square.height, c.length_paths]
  omega

def numberOf (word : List Char) : Nat := (Text.word? word).getD 0

def costTable (rows : List (List (List Char))) : Array (Array Nat) :=
  ((rows.map (List.map numberOf)).map List.toArray).toArray

theorem numberOf_eq_iff {word : List Char} (h : ∃ cost, Writes wordBound word cost) {cost : Nat} :
    cost = numberOf word ↔ Writes wordBound word cost := by
  obtain ⟨k, hk⟩ := h
  have hnumber : numberOf word = k := by
    rw [numberOf, Text.word?, Text.natBelow?_eq_some_iff.2 hk, Option.getD_some]
  rw [hnumber]
  constructor
  · rintro rfl
    exact hk
  · intro hcost
    exact hcost.unique hk

theorem readNumber_reads (_ line _ : Nat) (word : List Char) (cost : Nat) :
    readNumber line word = .ok cost ↔
      (∃ cost, Writes wordBound word cost) ∧ cost = numberOf word := by
  rw [readNumber_eq_ok_iff]
  constructor
  · intro h
    exact ⟨⟨cost, h⟩, (numberOf_eq_iff ⟨cost, h⟩).2 h⟩
  · rintro ⟨h, hcost⟩
    exact (numberOf_eq_iff h).1 hcost

theorem eq_costIn_iff {rows : List (List (List Char))} (hsquare : IsSquare n rows)
    (hwrite : ∀ v w word, wordAt rows v w = some word → ∃ cost, Writes wordBound word cost)
    {pair : Qubit × Qubit} (hpair : pair ∈ Graph.orderedPairs n) {cost : Nat} :
    cost = costIn (costTable rows) pair ↔
      ∃ word, wordAt rows pair.1 pair.2 = some word ∧ Writes wordBound word cost := by
  obtain ⟨hv, hw, -⟩ := Graph.mem_orderedPairs.1 hpair
  obtain ⟨word, hword⟩ := hsquare.exists_wordAt hv hw
  rw [costIn, costTable, Rows.getD_square, hword, Option.map_some, Option.getD_some,
    numberOf_eq_iff (hwrite _ _ word hword)]
  simp

theorem exists_entries (cost : Qubit × Qubit → Nat) {pairs : List (Qubit × Qubit)}
    {rows : List (List (List Char))} (hlen : rows.length = pairs.length)
    (h : ∀ row ∈ rows, ∃ p, WritesPath n row p) :
    ∃ es : List ((Qubit × Qubit) × RoutingEntry), es.map Prod.fst = pairs ∧
      List.Forall₂ (fun row x => WritesPath n row x.2.path) rows es ∧
      ∀ x ∈ es, x.2.cost = cost x.1 := by
  induction pairs generalizing rows with
  | nil =>
    obtain rfl := List.length_eq_zero_iff.1 hlen
    exact ⟨[], rfl, .nil, fun _ h => (List.not_mem_nil h).elim⟩
  | cons pair pairs ih =>
    obtain ⟨row, rows, rfl⟩ := List.exists_cons_of_length_eq_add_one hlen
    obtain ⟨⟨p, hp⟩, hrest⟩ := List.forall_mem_cons.1 h
    obtain ⟨es, hes, hpaths, hcosts⟩ := ih (Nat.succ.inj hlen) hrest
    exact ⟨(pair, ⟨cost pair, p⟩) :: es, congrArg (pair :: ·) hes, .cons hp hpaths,
      List.forall_mem_cons.2 ⟨rfl, hcosts⟩⟩

/-- Rows of the grammar are those of a table. -/
theorem CacheRows.exists_holds (c : CacheRows n) : ∃ t, c.Holds t := by
  obtain ⟨es, hes, hpaths, hcosts⟩ := exists_entries (costIn (costTable c.costs))
    (c.length_paths.trans (Graph.length_orderedPairs n).symm) c.paths_write
  refine ⟨⟨Graph.tabulate n _, es, hes⟩, rfl, c.isAdjacency.shown_tabulate, fun x hx => ?_, hpaths⟩
  have hpair : x.1 ∈ Graph.orderedPairs n := hes ▸ List.mem_map_of_mem hx
  exact (eq_costIn_iff c.costs_square c.costs_write hpair).1 (hcosts x hx)

theorem exists_rows_of_ofCacheText (h : ofCacheText text = .ok t) :
    countable t.size = true ∧
      ∃ c : CacheRows t.size, significantRows text = c.rows ∧ c.Holds t := by
  have htext := Text.map_words_ofText text
  rcases hr : Rows.ofText text with ⟨rows, lineCount⟩
  rw [hr] at htext
  rw [ofCacheText, hr, bind_eq_ok_iff] at h
  obtain ⟨⟨g, r₁⟩, hgraph, h⟩ := h
  obtain ⟨⟨costs, r₂⟩, hcosts, h⟩ := bind_eq_ok_iff.1 h
  obtain ⟨⟨⟨es, hes⟩, r₃⟩, hentries, h⟩ := bind_eq_ok_iff.1 h
  obtain ⟨_, hfinish, h⟩ := bind_eq_ok_iff.1 h
  obtain rfl := Except.ok.inj h
  obtain ⟨graphRows, _, rfl, rfl, header, adjacency, hwords, hheader, hcount, hadjacency, hshown⟩ :=
    Graph.read_reads.sound hgraph
  obtain ⟨costRows, _, rfl, rfl, hsquare, hwrite, rfl⟩ :=
    (Rows.square_reads .cost readNumber_reads).sound hcosts
  obtain ⟨pathRows, rest, rfl, rfl, hpaths, hprices⟩ := (readEntries_reads ..).sound hentries
  obtain rfl : rest = [] := Rows.finish_eq_ok_iff.1 hfinish
  have hlen : (pathRows.map Text.Row.words).length = g.size * (g.size - 1) := by
    calc (pathRows.map Text.Row.words).length = es.length := hpaths.length_eq
      _ = (es.map Prod.fst).length := (List.length_map _).symm
      _ = g.size * (g.size - 1) := by rw [hes, Graph.length_orderedPairs]
  have hpathsWrite : ∀ row ∈ pathRows.map Text.Row.words, ∃ p, WritesPath g.size row p := by
    intro row hrow
    obtain ⟨x, -, hx⟩ := exists_of_forall₂ hpaths hrow
    exact ⟨x.2.path, hx⟩
  refine ⟨hcount, ⟨header, adjacency, _, _, hheader, hadjacency, hsquare, hwrite, hlen,
    hpathsWrite⟩, ?_, rfl, hshown, fun x hx => ?_, hpaths⟩
  · rw [significantRows, ← htext, CacheRows.rows, List.append_nil, List.map_append, List.map_append,
      hwords, List.cons_append]
  · have hpair : x.1 ∈ Graph.orderedPairs g.size := hes ▸ List.mem_map_of_mem hx
    exact (eq_costIn_iff hsquare hwrite hpair).1 (hprices x hx)

theorem CacheRows.Holds.ofCacheText_eq {c : CacheRows n} (h : c.Holds t)
    (hcount : countable n = true) (hrows : significantRows text = c.rows) :
    ofCacheText text = .ok t := by
  obtain ⟨g, es, hes⟩ := t
  obtain rfl : g.size = n := h.size
  have htext := (Text.map_words_ofText text).trans hrows
  rcases hr : Rows.ofText text with ⟨rows, lineCount⟩
  rw [hr] at htext
  obtain ⟨graphRows, others, rfl, hgraph, hothers⟩ :=
    List.map_eq_append_iff.1 (htext.trans (List.cons_append ..).symm)
  obtain ⟨costRows, pathRows, rfl, hcostRows, hpathRows⟩ := List.map_eq_append_iff.1 hothers
  have hprices : ∀ x ∈ es, x.2.cost = costIn (costTable c.costs) x.1 := by
    intro x hx
    have hpair : x.1 ∈ Graph.orderedPairs g.size := hes ▸ List.mem_map_of_mem hx
    exact (eq_costIn_iff c.costs_square c.costs_write hpair).2 (h.costs x hx)
  have hreadGraph := Graph.read_reads.take graphRows g
    ⟨c.header, c.adjacency, hgraph, c.header_writes, hcount, c.isAdjacency, h.graph⟩
    (costRows ++ pathRows) lineCount
  have hreadCosts := (Rows.square_reads .cost readNumber_reads).take costRows _
    ⟨hcostRows.symm ▸ c.costs_square, hcostRows.symm ▸ c.costs_write, rfl⟩ pathRows lineCount
  have hreadPaths := (readEntries_reads g.size (costTable c.costs) _).take pathRows
    ⟨es, hes⟩ ⟨hpathRows.symm ▸ h.paths, hprices⟩ [] lineCount
  rw [List.append_nil] at hreadPaths
  rw [ofCacheText, hr, hreadGraph, ok_bind]
  dsimp only
  rw [hreadCosts, ok_bind, hcostRows]
  dsimp only
  rw [← costTable, hreadPaths]
  rfl

end Contents

section Defects

variable {line size : Nat} {text : String}

theorem noDefect_readNumber (line : Nat) (word : List Char) : NoDefect (readNumber line word) := by
  unfold readNumber
  split <;> rintro d ⟨⟩

theorem noDefect_readOperand (word : List Char) : NoDefect (readOperand line size word) := by
  refine (noDefect_readNumber line word).bind fun q _ => ?_
  split_ifs <;> rintro d ⟨⟩

theorem noDefect_readMoves (words : List (List Char)) : NoDefect (readMoves line size words) := by
  induction hlen : words.length using Nat.strong_induction_on generalizing words with
  | _ length ih =>
    subst hlen
    cases words with
    | nil =>
      rw [readMoves]
      exact noDefect_ok _
    | cons word rest =>
      rw [readMoves]
      split
      · rintro d ⟨⟩
      next shape _ =>
      split_ifs
      · rintro d ⟨⟩
      refine (NoDefect.mapM fun word _ => noDefect_readOperand word).bind fun operands _ => ?_
      split
      · rintro d ⟨⟩
      refine (ih _ ?_ _ rfl).bind fun _ _ => noDefect_ok _
      rw [List.length_drop, List.length_cons]
      omega

theorem noDefect_readPath (words : List (List Char)) : NoDefect (readPath line size words) := by
  unfold readPath
  split
  · rintro d ⟨⟩
  · split_ifs
    · rintro d ⟨⟩
    · rintro d ⟨⟩
    · exact noDefect_readMoves _

theorem noDefect_readEntries (size : Nat) (costs : Array (Array Nat)) (pairs : List (Qubit × Qubit))
    (r : Rows) : NoDefect (readEntries size costs pairs r) := by
  induction pairs generalizing r with
  | nil => exact noDefect_ok _
  | cons pair pairs ih =>
    refine (Rows.noDefect_next .path r).bind fun ⟨row, r⟩ _ => ?_
    exact (noDefect_readPath row.words).bind fun _ _ => (ih r).bind fun _ _ => noDefect_ok _

theorem noDefect_ofCacheText
    (h : ∀ word rest n, significantRows text = [word] :: rest → Writes longBound word n →
      countable n = true) : NoDefect (ofCacheText text) := by
  have hread : NoDefect (Graph.read (Rows.ofText text)) :=
    Graph.noDefect_read fun word rest n hrows =>
      h word rest n ((Text.map_words_ofText text).symm.trans hrows)
  refine hread.bind fun ⟨g, r⟩ _ => ?_
  refine (Rows.noDefect_matrix (fun _ line _ word => noDefect_readNumber line word) r).bind
    fun ⟨costs, r⟩ _ => ?_
  refine (noDefect_readEntries g.size _ _ r).bind fun ⟨es, r⟩ _ => ?_
  exact (Rows.noDefect_finish r).bind fun _ _ => noDefect_ok _

end Defects

section Acceptance

variable {n m : Nat} {text : String} {before after : List (List (List Char))}
  {row : List (List Char)}

def Rejected (text : String) : Prop :=
  ∃ e, ofCacheText text = .error e ∧ ∀ d, e ≠ .defect d

/-- After the row of the size there is no other such row, but for a single qubit. -/
theorem CacheRows.header_of_rest (c : CacheRows n) {word : List Char}
    (h : c.adjacency ++ (c.costs ++ c.paths) = [word] :: after) : n = 1 ∧ word = ['0'] := by
  have hheight := c.isAdjacency.square.height
  have hbits := c.isAdjacency.bits 0 0
  have hwidth := c.isAdjacency.square.width
  cases hadjacency : c.adjacency with
  | nil =>
    rw [hadjacency] at hheight h
    obtain rfl : n = 0 := hheight.symm
    rw [List.length_eq_zero_iff.1 c.costs_square.height,
      List.length_eq_zero_iff.1 c.length_paths] at h
    cases h
  | cons first rest =>
    rw [hadjacency] at h hbits hwidth
    obtain rfl : first = [word] := (List.cons.inj h).1
    refine ⟨(hwidth _ List.mem_cons_self).symm, ?_⟩
    rcases hbits word rfl with hzero | ⟨-, hdiagonal⟩
    · exact hzero
    · exact absurd rfl hdiagonal

theorem writes_zero : Writes longBound ['0'] 0 :=
  ⟨['0'], Or.inl rfl, List.cons_ne_nil _ _, by simp, rfl, by decide⟩

/-- The rows that are left when one is taken away are not of the grammar, whatever their size. -/
theorem CacheRows.ne_of_removed (c : CacheRows n) (c' : CacheRows m)
    (h : c.rows = before ++ row :: after) : c'.rows ≠ before ++ after := by
  intro h'
  have hlen := c.length_rows
  have hlen' := c'.length_rows
  rw [h, List.length_append, List.length_cons] at hlen
  rw [h', List.length_append] at hlen'
  cases before with
  | nil =>
    have hrest : c.adjacency ++ (c.costs ++ c.paths) = [c'.header] :: _ :=
      (List.cons.inj h).2.trans h'.symm
    obtain ⟨rfl, hzero⟩ := c.header_of_rest hrest
    have hwrites := c'.header_writes
    rw [hzero] at hwrites
    obtain rfl := writes_zero.unique hwrites
    rw [List.length_nil] at hlen hlen'
    omega
  | cons first before =>
    have hheader : [c.header] = [c'.header] :=
      (List.cons.inj h).1.trans (List.cons.inj h').1.symm
    have hwrites := c.header_writes
    rw [(List.cons.inj hheader).1] at hwrites
    obtain rfl := hwrites.unique c'.header_writes
    omega

/-- Rows of the grammar in a text that is in memory are those of a matrix that fits memory. -/
theorem CacheRows.countable (c : CacheRows n) (hrows : significantRows text = c.rows)
    (hfits : fitsBlock 1 text.length = true) : countable n = true := by
  refine c.isAdjacency.countable ?_ hfits
  rw [hrows]
  exact (List.sublist_append_left _ _).cons _

theorem CacheRows.countable_of_header (c : CacheRows n) (hcount : Graph.countable n = true)
    {others others' rest : List (List (List Char))} (hne : before ≠ [])
    (h : c.rows = before ++ others) {word : List Char} {k : Nat}
    (h' : before ++ others' = [word] :: rest) (hk : Writes longBound word k) :
    Graph.countable k = true := by
  obtain ⟨first, before, rfl⟩ := List.exists_cons_of_ne_nil hne
  have hheader : [c.header] = [word] := (List.cons.inj h).1.trans (List.cons.inj h').1
  obtain rfl := (List.cons.inj hheader).1
  obtain rfl := c.header_writes.unique hk
  exact hcount

/-- A text whose rows are not of the grammar is refused if no size in its first row is too large. -/
theorem rejected_of_ne (hrows : ∀ m (c : CacheRows m), significantRows text ≠ c.rows)
    (hsize : ∀ word rest k, significantRows text = [word] :: rest → Writes longBound word k →
      Graph.countable k = true) : Rejected text := by
  cases hread : ofCacheText text with
  | ok t =>
    obtain ⟨-, c, hc, -⟩ := exists_rows_of_ofCacheText hread
    exact absurd hc (hrows _ c)
  | error e =>
    refine ⟨e, hread, ?_⟩
    rintro d rfl
    exact noDefect_ofCacheText hsize d hread

theorem CacheRows.rejected_of_removed (c : CacheRows n) (hcount : Graph.countable n = true)
    (h : c.rows = before ++ row :: after) (h' : significantRows text = before ++ after) :
    Rejected text := by
  refine rejected_of_ne (fun m c' hc' => c.ne_of_removed c' h (hc'.symm.trans h')) ?_
  intro word rest k hfirst hk
  rw [h'] at hfirst
  by_cases hne : before = []
  · subst hne
    have hrest : c.adjacency ++ (c.costs ++ c.paths) = [word] :: rest :=
      (List.cons.inj h).2.trans hfirst
    obtain rfl := (c.header_of_rest hrest).2
    obtain rfl := writes_zero.unique hk
    rfl
  · exact c.countable_of_header hcount hne h hfirst hk

theorem CacheRows.rejected_of_inserted (c : CacheRows n) (hcount : Graph.countable n = true)
    (hne : before ≠ []) (h : c.rows = before ++ after)
    (h' : significantRows text = before ++ row :: after) : Rejected text := by
  refine rejected_of_ne (fun m c' hc' => c'.ne_of_removed c (hc'.symm.trans h') h) ?_
  intro word rest k hfirst hk
  exact c.countable_of_header hcount hne h (h'.symm.trans hfirst) hk

/-- A text, which is in memory, is read exactly when its rows are of the grammar, and as the table
that holds what they write. If it is read, a text with one of the rows less, or with one row more
after the first, is refused. -/
theorem ofCacheText_grammar (hfits : fitsBlock 1 text.length = true) :
    ((∃ t, ofCacheText text = .ok t) ↔ ∃ n, ∃ c : CacheRows n, significantRows text = c.rows) ∧
    (∀ n (c : CacheRows n), significantRows text = c.rows →
      ∀ t, ofCacheText text = .ok t ↔ c.Holds t) ∧
    ∀ t, ofCacheText text = .ok t → ∀ text' before row after,
      (significantRows text = before ++ row :: after → significantRows text' = before ++ after →
        Rejected text') ∧
      (before ≠ [] → significantRows text = before ++ after →
        significantRows text' = before ++ row :: after → Rejected text') := by
  have hexact : ∀ n (c : CacheRows n), significantRows text = c.rows →
      ∀ t, ofCacheText text = .ok t ↔ c.Holds t := by
    intro n c hrows t
    have hcount := c.countable hrows hfits
    constructor
    · intro hread
      obtain ⟨t', ht'⟩ := c.exists_holds
      obtain rfl := Except.ok.inj (hread.symm.trans (ht'.ofCacheText_eq hcount hrows))
      exact ht'
    · intro h
      exact h.ofCacheText_eq hcount hrows
  refine ⟨⟨?_, ?_⟩, hexact, ?_⟩
  · rintro ⟨t, ht⟩
    obtain ⟨-, c, hrows, -⟩ := exists_rows_of_ofCacheText ht
    exact ⟨_, c, hrows⟩
  · rintro ⟨n, c, hrows⟩
    obtain ⟨t, ht⟩ := c.exists_holds
    exact ⟨t, (hexact n c hrows t).2 ht⟩
  · intro t ht text' before row after
    obtain ⟨hcount, c, hrows, -⟩ := exists_rows_of_ofCacheText ht
    constructor
    · intro h h'
      exact c.rejected_of_removed hcount (hrows.symm.trans h) h'
    · intro hne h h'
      exact c.rejected_of_inserted hcount hne (hrows.symm.trans h) h'

def twoQubits : String := "# two\n2\n0 1\n0 0\n\n7 0\n3 0\ncost nop 0 1\ncost flip 1 0"

/-- It is of the grammar, and without the row of its last path it is refused. -/
theorem ofCacheText_two :
    (∃ n, ∃ c : CacheRows n, significantRows twoQubits = c.rows) ∧
      Rejected "2\n0 1\n0 0\n7 0\n3 0\ncost nop 0 1" := by
  have hread : (ofCacheText twoQubits).isOk = true := by decide +kernel
  have hrow : significantRows twoQubits =
      significantRows "2\n0 1\n0 0\n7 0\n3 0\ncost nop 0 1" ++
        [Text.words "cost flip 1 0".toList] := by
    decide +kernel
  obtain ⟨t, ht⟩ := isOk_iff.1 hread
  have hfits : fitsBlock 1 twoQubits.length = true := by decide
  obtain ⟨hgrammar, -, hrejected⟩ := ofCacheText_grammar hfits
  exact ⟨hgrammar.1 ⟨t, ht⟩, (hrejected t ht _ _ _ []).1 hrow (List.append_nil _).symm⟩

end Acceptance

end RoutingTable

end QubitRouting
