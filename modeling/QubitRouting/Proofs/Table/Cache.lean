import QubitRouting.Proofs.Device.Description
import QubitRouting.Proofs.Table.Completeness
import QubitRouting.Proofs.Table.Grammar

/-!
The text of a table reads back. It does for every table whose numbers keep their widths and whose
paths have moves, all of them on the device; a table that was built is such a table, and so is one
that was read, whatever the text was.
-/

namespace QubitRouting

namespace Move

def words (m : Move) : List (List Char) := m.name.toList :: m.qubits.map (Nat.toDigits 10)

theorem isWord_name (m : Move) : Text.IsWord m.name.toList := by
  have hnames : ∀ carried heading undoing,
      Text.IsWord (Relay.name ⟨carried, heading, undoing, 0, 0⟩).toList := by
    intro carried heading undoing
    cases carried <;> cases heading <;> cases undoing <;> decide
  cases m with
  | relay r => exact hnames r.carried r.heading r.undoing
  | nop a b => exact (by decide : Text.IsWord "nop".toList)
  | flip a b => exact (by decide : Text.IsWord "flip".toList)
  | cnot3 a b c => exact (by decide : Text.IsWord "cnot3".toList)

theorem words_text (m : Move) : Text.words m.text.toList = m.words := by
  rw [text, Text.words_intercalate, List.flatMap_cons, Text.words_of_isWord m.isWord_name,
    List.flatMap_map, words, List.map_eq_flatMap, List.singleton_append]
  refine congrArg _ (congrArg (List.flatMap · _) (funext fun q => ?_))
  exact Text.words_toString q

theorem isRow_text (m : Move) : Text.IsRow m.text.toList := by
  refine Text.IsRow.intercalate (List.cons_ne_nil _ _) ?_
  refine List.forall_mem_cons.2 ⟨m.isWord_name.isRow, List.forall_mem_map.2 fun q _ => ?_⟩
  exact (Text.isWord_toString q).isRow

end Move

namespace RoutingTable

open QubitRouting.Graph (countable)

variable {g : Graph} {limit : Option Nat} {t : RoutingTable} {size : Nat} {p : Path}

/-- A path that can be written and read: it has moves, and all of them are on the device. -/
structure Storable (size : Nat) (p : Path) : Prop where
  ne_nil : p ≠ []
  inside : ∀ m ∈ p, ∀ q ∈ m.qubits, q < size

structure Durable (t : RoutingTable) : Prop where
  countable : Graph.countable t.size = true
  cost_lt : ∀ x ∈ t.entries, x.2.cost < wordBound
  storable : ∀ x ∈ t.entries, Storable t.size x.2.path

section Paths

theorem writesMove_words {m : Move} (hsize : size < wordBound) (h : ∀ q ∈ m.qubits, q < size) :
    WritesMove size m.words m := by
  refine ⟨_, rfl, List.forall₂_map_left_iff.2 (List.forall₂_same.2 fun q hq => ?_)⟩
  exact ⟨Text.writes_toDigits (Nat.lt_trans (h q hq) hsize), h q hq⟩

theorem inside_of_writesMove {words : List (List Char)} {m : Move} (h : WritesMove size words m) :
    ∀ q ∈ m.qubits, q < size := by
  obtain ⟨_, -, hoperands⟩ := h
  intro q hq
  obtain ⟨_, -, -, hlt⟩ := exists_of_forall₂ hoperands.flip hq
  exact hlt

def pathWords (p : Path) : List (List Char) := pathMarker.toList :: p.flatMap Move.words

theorem words_pathRow (p : Path) : Text.words (pathRow p).toList = pathWords p := by
  have hmarker : Text.words pathMarker.toList = [pathMarker.toList] :=
    Text.words_of_isWord (by decide)
  rw [pathRow, Text.words_intercalate, List.flatMap_cons, hmarker, List.flatMap_map, pathWords,
    List.singleton_append]
  exact congrArg _ (congrArg (List.flatMap · _) (funext Move.words_text))

theorem isRow_pathRow (p : Path) : Text.IsRow (pathRow p).toList := by
  have hmarker : Text.IsWord pathMarker.toList := by decide
  refine Text.IsRow.intercalate (List.cons_ne_nil _ _) (List.forall_mem_cons.2 ⟨hmarker.isRow, ?_⟩)
  exact List.forall_mem_map.2 fun m _ => m.isRow_text

theorem writesPath_pathWords (hsize : size < wordBound) (h : Storable size p) :
    WritesPath size (pathWords p) p := by
  refine ⟨h.ne_nil, p.map Move.words, rfl, ?_⟩
  refine List.forall₂_map_left_iff.2 (List.forall₂_same.2 fun m hm => ?_)
  exact writesMove_words hsize (h.inside m hm)

theorem storable_of_writesPath {row : List (List Char)} (h : WritesPath size row p) :
    Storable size p := by
  obtain ⟨hne, groups, -, hgroups⟩ := h
  refine ⟨hne, fun m hm => ?_⟩
  obtain ⟨words, -, hwords⟩ := exists_of_forall₂ hgroups.flip hm
  exact inside_of_writesMove hwords

end Paths

section Texts

def costAt (t : RoutingTable) (v w : Qubit) : Nat := (t.cost? v w).getD 0

theorem costAt_lt (h : t.Durable) (v w : Qubit) : t.costAt v w < wordBound := by
  unfold costAt cost?
  cases he : t.get? v w with
  | none => exact Nat.two_pow_pos 32
  | some e => exact h.cost_lt _ (mem_of_get? he)

theorem costAt_of_mem {x : (Qubit × Qubit) × RoutingEntry} (hx : x ∈ t.entries) :
    t.costAt x.1.1 x.1.2 = x.2.cost := by
  rw [costAt, cost?, get?_of_mem hx]
  rfl

def costRows (t : RoutingTable) : List String :=
  t.graph.qubits.map fun v => " ".intercalate (t.graph.qubits.map fun w => toString (t.costAt v w))

def pathRows (t : RoutingTable) : List String := t.entries.map fun x => pathRow x.2.path

theorem cacheText_eq (t : RoutingTable) : t.cacheText =
    String.join ((t.graph.textRows ++ (t.costRows ++ t.pathRows)).map (· ++ "\n")) := by
  rw [List.map_append, String.join_append, ← Graph.text_eq, cacheText, String.join_cons]
  congr 2
  simp [costRows, pathRows, costMatrix, costAt, Function.comp_def]

theorem isRow_costRows : ∀ row ∈ t.costRows, Text.IsRow row.toList := by
  refine List.forall_mem_map.2 fun v hv => ?_
  have hne : t.graph.qubits ≠ [] := List.ne_nil_of_mem hv
  refine Text.IsRow.intercalate (by simpa using hne) (List.forall_mem_map.2 fun w _ => ?_)
  exact (Text.isWord_toString _).isRow

def costWords (t : RoutingTable) : List (List (List Char)) :=
  t.graph.qubits.map fun v => t.graph.qubits.map fun w => Nat.toDigits 10 (t.costAt v w)

theorem words_costRows : t.costRows.map (fun row => Text.words row.toList) = t.costWords := by
  rw [costRows, List.map_map, costWords]
  refine List.map_congr_left fun v _ => ?_
  rw [Function.comp_apply, Text.words_intercalate, List.flatMap_map, List.map_eq_flatMap]
  exact congrArg (List.flatMap · _) (funext fun w => Text.words_toString _)

theorem words_pathRows : t.pathRows.map (fun row => Text.words row.toList) =
    t.entries.map fun x => pathWords x.2.path := by
  rw [pathRows, List.map_map]
  exact List.map_congr_left fun x _ => words_pathRow x.2.path

def Durable.cacheRows (h : t.Durable) : CacheRows t.size where
  header := Nat.toDigits 10 t.size
  adjacency := t.graph.matrixWords
  costs := t.costWords
  paths := t.entries.map fun x => pathWords x.2.path
  header_writes :=
    Text.writes_toDigits (Nat.lt_trans (Graph.lt_of_countable h.countable) (by decide))
  isAdjacency := t.graph.isAdjacency_matrixWords
  costs_square := Text.isSquare_table _ _
  costs_write := by
    intro v w word hword
    obtain ⟨-, rfl⟩ := Text.wordAt_table_iff.1 hword
    exact ⟨_, Text.writes_toDigits (costAt_lt h v w)⟩
  length_paths := by
    rw [List.length_map, ← List.length_map (f := Prod.fst), t.covers, Graph.length_orderedPairs]
    rfl
  paths_write := List.forall_mem_map.2 fun x hx =>
    ⟨_, writesPath_pathWords (Graph.lt_of_countable h.countable) (h.storable x hx)⟩

theorem Durable.holds_cacheRows (h : t.Durable) : h.cacheRows.Holds t where
  size := rfl
  graph := t.graph.shown_matrixWords
  costs := by
    intro x hx
    have hpair : x.1 ∈ Graph.orderedPairs t.graph.size := t.covers ▸ List.mem_map_of_mem hx
    obtain ⟨hv, hw, -⟩ := Graph.mem_orderedPairs.1 hpair
    refine ⟨_, Text.wordAt_table_iff.2 ⟨⟨hv, hw⟩, rfl⟩, ?_⟩
    rw [costAt_of_mem hx]
    exact Text.writes_toDigits (h.cost_lt x hx)
  paths := by
    refine List.forall₂_map_left_iff.2 (List.forall₂_same.2 fun x hx => ?_)
    exact writesPath_pathWords (Graph.lt_of_countable h.countable) (h.storable x hx)

theorem Durable.ofCacheText_cacheText (h : t.Durable) : ofCacheText t.cacheText = .ok t := by
  have hrow : ∀ row ∈ t.graph.textRows ++ (t.costRows ++ t.pathRows), Text.IsRow row.toList := by
    refine List.forall_mem_append.2 ⟨t.graph.isRow_textRows, List.forall_mem_append.2 ?_⟩
    exact ⟨isRow_costRows, List.forall_mem_map.2 fun x _ => isRow_pathRow _⟩
  have hwords : Text.significantRows t.cacheText = h.cacheRows.rows := by
    rw [Text.significantRows, ← Text.map_words_ofText, cacheText_eq, Text.rows_of_printed hrow,
      List.map_append, List.map_append, Graph.words_textRows, words_costRows, words_pathRows]
    rfl
  exact h.holds_cacheRows.ofCacheText_eq h.countable hwords

end Texts

section Sources

theorem routes_of_cheapest {v w : Qubit} {cost : Nat} (hv : v < g.size) (hw : w < g.size)
    (hvw : v ≠ w) (h : g.cheapest limit v w = .ok (cost, p)) : g.Routes v w p := by
  have hfits : g.cheapest limit v w ≠ .error (.defect .overflow) := by
    rw [h]
    exact fun hbad => by cases hbad
  rcases Graph.cheapest_of_fits hvw hv hw hfits with ⟨-, herror⟩ | ⟨_, _, hok, first⟩
  · rw [h] at herror
    cases herror
  · obtain ⟨rfl, rfl⟩ := Prod.mk.inj (Except.ok.inj (h.symm.trans hok))
    exact Graph.routes_of_mem_candidates hvw hv hw first.mem

theorem storable_of_entryOf {e : RoutingEntry} {v w : Qubit} (hv : v < g.size) (hw : w < g.size)
    (hvw : v ≠ w) (h : entryOf g limit v w = .ok e) :
    e.cost < wordBound ∧ Storable g.size e.path := by
  have hne : e.path ≠ [] := (inReach_of_entry hv hw hvw h).2
  refine ⟨cost_lt_of_entryOf h, hne, ?_⟩
  cases hn : g.adjacent v w with
  | true =>
    rw [entryOf, if_pos hn] at h
    obtain rfl := Except.ok.inj h
    refine List.forall_mem_singleton.2 ?_
    exact List.forall_mem_cons.2 ⟨hv, List.forall_mem_singleton.2 hw⟩
  | false =>
    rw [entryOf, if_neg (by simp [hn])] at h
    obtain ⟨⟨cost, p⟩, hcheapest, h⟩ := bind_eq_ok_iff.1 h
    obtain rfl := Except.ok.inj h
    have hroutes := routes_of_cheapest hv hw hvw hcheapest
    exact fun m hm => (Path.fits_complete hroutes.fits m hm).inside

/-- What was built can be written and read, on every device that fits memory. -/
theorem durable_of_build (hg : countable g.size = true) (h : build g limit = .ok t) :
    t.Durable := by
  have hentry : ∀ x ∈ t.entries, x.2.cost < wordBound ∧ Storable t.size x.2.path := by
    intro x hx
    have hpair : x.1 ∈ Graph.orderedPairs t.graph.size := t.covers ▸ List.mem_map_of_mem hx
    rw [build_graph h] at hpair
    obtain ⟨hv, hw, hvw⟩ := Graph.mem_orderedPairs.1 hpair
    rw [size, build_graph h]
    exact storable_of_entryOf hv hw hvw (entryOf_of_get? h (get?_of_mem hx))
  refine ⟨?_, fun x hx => (hentry x hx).1, fun x hx => (hentry x hx).2⟩
  rwa [size, build_graph h]

/-- What was read can be written and read again, whatever the text was. -/
theorem durable_of_ofCacheText {text : String} (h : ofCacheText text = .ok t) : t.Durable := by
  obtain ⟨hcount, c, -, h⟩ := exists_rows_of_ofCacheText h
  refine ⟨hcount, fun x hx => ?_, fun x hx => ?_⟩
  · obtain ⟨word, -, hword⟩ := h.costs x hx
    exact hword.lt
  · obtain ⟨row, -, hrow⟩ := exists_of_forall₂ h.paths.flip hx
    exact storable_of_writesPath hrow

/-- A table that was built, on any device that fits memory and with any limit, or that was read from
any text, is read back from its own text: the same graph, costs and paths. -/
theorem cache_round_trip
    (h : (∃ g limit, countable g.size = true ∧ build g limit = .ok t) ∨
      ∃ text, ofCacheText text = .ok t) :
    ofCacheText t.cacheText = .ok t := by
  rcases h with ⟨g, limit, hg, hbuild⟩ | ⟨text, htext⟩
  · exact (durable_of_build hg hbuild).ofCacheText_cacheText
  · exact (durable_of_ofCacheText htext).ofCacheText_cacheText

/-- The table of a row of three qubits, and one that was read from a text with a comment and with
costs of its own, of which a cost on the diagonal is not kept. -/
theorem cache_round_trip_row :
    (∃ t, build (Graph.row 3) none = .ok t ∧ ofCacheText t.cacheText = .ok t) ∧
    ∃ t, ofCacheText "# two\n2\n0 1\n0 0\n\n7 0\n3 0\ncost nop 0 1\ncost flip 1 0" = .ok t ∧
      ofCacheText t.cacheText = .ok t := by
  obtain ⟨t, ht⟩ := exists_build_row
  have hread : (ofCacheText
      "# two\n2\n0 1\n0 0\n\n7 0\n3 0\ncost nop 0 1\ncost flip 1 0").isOk = true := by
    decide +kernel
  obtain ⟨t', ht'⟩ := isOk_iff.1 hread
  refine ⟨⟨t, ht, cache_round_trip (Or.inl ⟨_, _, by decide, ht⟩)⟩, t', ht', ?_⟩
  exact cache_round_trip (Or.inr ⟨_, ht'⟩)

end Sources

end RoutingTable

end QubitRouting
