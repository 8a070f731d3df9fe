import QubitRouting.Device.Description
import QubitRouting.Proofs.Outcome
import QubitRouting.Proofs.Text.Grammar

/-!
What the readers of rows take. A matrix takes as many rows as it has columns and asks each word
whether it may stand where it stands; a graph takes the row of its size and the rows of its matrix.
Only a size whose matrix fits no memory stops a reader; all else is told of the rows.
-/

namespace QubitRouting

namespace Text.Rows

variable {α : Type}

/-- A reader takes from the front of the rows what `allows` tells, with that value, and leaves the
rows after it; and it takes all that is allowed, whatever rows follow. -/
structure Reads (read : Rows → Except RoutingError (α × Rows)) (allows : List Row → α → Prop) :
    Prop where
  sound : ∀ {rows lineCount x r}, read ⟨rows, lineCount⟩ = .ok (x, r) →
    ∃ taken rest, rows = taken ++ rest ∧ r = ⟨rest, lineCount⟩ ∧ allows taken x
  take : ∀ taken x, allows taken x → ∀ rest lineCount,
    read ⟨taken ++ rest, lineCount⟩ = .ok (x, ⟨rest, lineCount⟩)

theorem next_reads (kind : RowKind) : Reads (next kind) fun taken row => taken = [row] := by
  constructor
  · intro rows lineCount row r h
    cases rows with
    | nil => cases h
    | cons first rest =>
      obtain ⟨rfl, rfl⟩ := Prod.mk.inj (Except.ok.inj h)
      exact ⟨[first], rest, rfl, rfl, rfl⟩
  · rintro taken row rfl rest lineCount
    rfl

theorem finish_eq_ok_iff {r : Rows} : r.finish = .ok () ↔ r.rows = [] := by
  obtain ⟨rows, lineCount⟩ := r
  cases rows <;> simp [finish]

section Matrix

variable {n index : Nat} {value : List Char → α}

theorem entries_eq_ok_iff {entry : Nat → Nat → List Char → Except RoutingError α}
    {valid : Nat → List Char → Prop} {row : Row} {values : List α}
    (h : ∀ j word x, entry row.line j word = .ok x ↔ valid j word ∧ x = value word) :
    entries n index entry row = .ok values ↔ row.words.length = n ∧
      (∀ j word, row.words[j]? = some word → valid j word) ∧ values = row.words.map value := by
  have hread : row.words.zipIdx.mapM (fun a => entry row.line a.2 a.1) = .ok values ↔
      (∀ a ∈ row.words.zipIdx, valid a.2 a.1) ∧
        values = row.words.zipIdx.map fun a => value a.1 := by
    rw [mapM_eq_ok_iff (R := fun a x => valid a.2 a.1 ∧ x = value a.1) fun a x => h a.2 a.1 x,
      List.forall₂_and_left]
    refine and_congr_right fun _ => ?_
    rw [eq_comm, ← List.forall₂_eq_eq_eq, List.forall₂_map_left_iff]
    simp only [eq_comm]
  have hvalues : (row.words.zipIdx.map fun a => value a.1) = row.words.map value := by
    rw [← Function.comp_def value Prod.fst, ← List.map_map, List.zipIdx_map_fst]
  have hvalid : (∀ a ∈ row.words.zipIdx, valid a.2 a.1) ↔
      ∀ j word, row.words[j]? = some word → valid j word := by
    simp only [List.mem_zipIdx_iff_getElem?, Prod.forall]
    exact forall_comm
  rw [entries]
  split_ifs with hlen
  · simp [hlen]
  · rw [not_not] at hlen
    exact (hread.trans (by rw [hvalid, hvalues])).trans (by simp [hlen])

variable {entry : Nat → Nat → Nat → List Char → Except RoutingError α}
  {valid : Nat → Nat → List Char → Prop}

/-- The last rows of a matrix, whose words are asked by their row and column in all of it. -/
theorem matrix_reads (kind : RowKind)
    (h : ∀ i line j word x, entry i line j word = .ok x ↔ valid i j word ∧ x = value word)
    {start left : Nat} (hleft : start + left = n) :
    Reads (matrix kind n entry left) fun taken values =>
      taken.length = left ∧ (∀ row ∈ taken, row.words.length = n) ∧
      (∀ i j word, wordAt (taken.map Row.words) i j = some word → valid (start + i) j word) ∧
      values = taken.map fun row => row.words.map value := by
  induction left generalizing start with
  | zero =>
    constructor
    · intro rows lineCount values r h
      obtain ⟨rfl, rfl⟩ := Prod.mk.inj (Except.ok.inj h)
      refine ⟨[], rows, rfl, rfl, rfl, fun _ h => (List.not_mem_nil h).elim, ?_, rfl⟩
      rintro i j word ⟨⟩
    · rintro taken values ⟨hlen, -, -, rfl⟩ rest lineCount
      obtain rfl := List.length_eq_zero_iff.1 hlen
      rfl
  | succ left ih =>
    have hindex : n - (left + 1) = start := by omega
    have hnext : start + 1 + left = n := by omega
    have hshift : ∀ i, start + 1 + i = start + (i + 1) := by omega
    constructor
    · intro rows lineCount values r hread
      rw [matrix, bind_eq_ok_iff, hindex] at hread
      obtain ⟨⟨row, r₁⟩, hrow, hread⟩ := hread
      obtain ⟨first, hfirst, hread⟩ := bind_eq_ok_iff.1 hread
      obtain ⟨⟨others, r₂⟩, hothers, hread⟩ := bind_eq_ok_iff.1 hread
      obtain ⟨rfl, rfl⟩ := Prod.mk.inj (Except.ok.inj hread)
      obtain ⟨_, rest, rfl, rfl, rfl⟩ := (next_reads kind).sound hrow
      obtain ⟨taken, rest, rfl, rfl, hlen, hwidth, hvalid, rfl⟩ := (ih hnext).sound hothers
      obtain ⟨hrowWidth, hrowValid, rfl⟩ := (entries_eq_ok_iff (h start row.line)).1 hfirst
      refine ⟨row :: taken, rest, rfl, rfl, congrArg (· + 1) hlen,
        List.forall_mem_cons.2 ⟨hrowWidth, hwidth⟩, ?_, rfl⟩
      intro i j word hword
      cases i with
      | zero => exact hrowValid j word hword
      | succ i => exact hshift i ▸ hvalid i j word hword
    · rintro taken values ⟨hlen, hwidth, hvalid, rfl⟩ rest lineCount
      obtain ⟨row, taken, rfl⟩ := List.exists_cons_of_length_eq_add_one hlen
      obtain ⟨hrowWidth, hwidth⟩ := List.forall_mem_cons.1 hwidth
      have hfirst : entries n start (entry start) row = .ok (row.words.map value) :=
        (entries_eq_ok_iff (h start row.line)).2 ⟨hrowWidth, fun j => hvalid 0 j, rfl⟩
      have hothers := (ih hnext).take taken _ ⟨Nat.succ.inj hlen, hwidth,
        fun i j word hword => (hshift i).symm ▸ hvalid (i + 1) j word hword, rfl⟩ rest lineCount
      rw [matrix, hindex, List.cons_append]
      simp only [next, ok_bind, hfirst, hothers]
      rfl

/-- A matrix takes a square of words that may stand where they stand. -/
theorem square_reads (kind : RowKind)
    (h : ∀ i line j word x, entry i line j word = .ok x ↔ valid i j word ∧ x = value word) :
    Reads (matrix kind n entry n) fun taken values =>
      IsSquare n (taken.map Row.words) ∧
      (∀ i j word, wordAt (taken.map Row.words) i j = some word → valid i j word) ∧
      values = (taken.map Row.words).map (List.map value) := by
  have hrows := matrix_reads kind h (Nat.zero_add n)
  simp only [Nat.zero_add] at hrows
  constructor
  · intro rows lineCount values r hread
    obtain ⟨taken, rest, rfl, rfl, hheight, hwidth, hvalid, rfl⟩ := hrows.sound hread
    refine ⟨taken, rest, rfl, rfl, ⟨?_, List.forall_mem_map.2 hwidth⟩, hvalid, ?_⟩
    · rw [List.length_map, hheight]
    · rw [List.map_map]
      rfl
  · rintro taken values ⟨hsquare, hvalid, rfl⟩ rest lineCount
    refine hrows.take _ _ ⟨?_, List.forall_mem_map.1 hsquare.width, hvalid, ?_⟩ rest lineCount
    · rw [← hsquare.height, List.length_map]
    · rw [List.map_map]
      rfl

end Matrix

theorem getD_square {α : Type} (rows : List (List (List Char))) (value : List Char → α) (d : α)
    (i j : Nat) :
    ((((rows.map (List.map value)).map List.toArray).toArray[i]?.getD #[])[j]?).getD d =
      ((wordAt rows i j).map value).getD d := by
  simp only [List.getElem?_toArray, List.getElem?_map, wordAt]
  cases rows[i]? <;> simp

end Text.Rows

namespace Graph

open Text (IsSquare Writes wordAt)

def IsBit (row column : Nat) (word : List Char) : Prop :=
  word = ['0'] ∨ (word = ['1'] ∧ row ≠ column)

structure IsAdjacency (n : Nat) (rows : List (List (List Char))) : Prop where
  square : IsSquare n rows
  bits : ∀ c t word, wordAt rows c t = some word → IsBit c t word

def Shown (g : Graph) (rows : List (List (List Char))) : Prop :=
  ∀ c t, g.adjacent c t = true ↔ wordAt rows c t = some ['1']

variable {n : Nat} {rows : List (List (List Char))} {g : Graph}

theorem readEntry_eq_ok_iff (row line column : Nat) (word : List Char) (b : Bool) :
    readEntry row line column word = .ok b ↔
      IsBit row column word ∧ b = decide (word = ['1']) := by
  unfold readEntry IsBit
  split_ifs with h0 h1 hdiagonal
  · simp [h0, eq_comm]
  · simp [h0, h1]
  · simp_all
  · simp_all [eq_comm]

theorem readSize_reads : Text.Rows.Reads readSize fun taken n =>
    ∃ word, taken.map Text.Row.words = [[word]] ∧ Writes longBound word n ∧
      countable n = true := by
  constructor
  · intro rows lineCount n r h
    rw [readSize, bind_eq_ok_iff] at h
    obtain ⟨⟨header, r₁⟩, hheader, h⟩ := h
    obtain ⟨_, rest, rfl, rfl, rfl⟩ := (Text.Rows.next_reads .count).sound hheader
    dsimp only at h
    split at h
    · next word hword =>
      split at h
      · cases h
      · next m hm =>
        split_ifs at h with hcount
        obtain ⟨rfl, rfl⟩ := Prod.mk.inj (Except.ok.inj h)
        refine ⟨[header], rest, rfl, rfl, word, congrArg (fun ws => [ws]) hword, ?_, hcount⟩
        exact Text.natBelow?_eq_some_iff.1 hm
    · cases h
  · rintro taken n ⟨word, htaken, hn, hcount⟩ rest lineCount
    obtain ⟨header, _, rfl, hword, hnil⟩ := List.map_eq_cons_iff.1 htaken
    obtain rfl := List.map_eq_nil_iff.1 hnil
    have hlong : Text.long? word = some n := Text.natBelow?_eq_some_iff.2 hn
    rw [readSize, (Text.Rows.next_reads .count).take _ header rfl, ok_bind]
    simp only [hword, hlong, hcount, if_true]
    rfl

theorem IsAdjacency.shown_tabulate (h : IsAdjacency n rows) :
    (tabulate n (lookup
      ((rows.map (List.map fun word => decide (word = ['1']))).map List.toArray).toArray)).Shown
        rows := by
  intro c t
  rw [adjacent_tabulate, lookup, Text.Rows.getD_square, Bool.and_eq_true, decide_eq_true_iff]
  constructor
  · rintro ⟨-, hone⟩
    cases hword : wordAt rows c t with
    | none => simp [hword] at hone
    | some word => simpa [hword] using hone
  · intro hone
    obtain ⟨hc, ht⟩ := h.square.lt_of_wordAt hone
    rcases h.bits c t _ hone with hzero | ⟨-, hct⟩
    · cases hzero
    · exact ⟨⟨hc, ht, hct⟩, by simp [hone]⟩

/-- A matrix in a text that is in memory fits memory, since the text has a word for each entry. -/
theorem IsAdjacency.countable {text : String} (h : IsAdjacency n rows)
    (hsub : rows.Sublist (Text.significantRows text)) (hfits : fitsBlock 1 text.length = true) :
    countable n = true := by
  have hwords : n * n ≤ text.length :=
    calc n * n = (rows.map List.length).sum := h.square.sum_length.symm
      _ ≤ ((Text.significantRows text).map List.length).sum :=
        (hsub.map _).sum_le_sum fun _ _ => Nat.zero_le _
      _ ≤ text.length := Text.sum_length_significantRows text
  have hlong := of_decide_eq_true hfits
  exact decide_eq_true (by omega)

theorem Shown.unique {h : Graph} (hsize : g.size = h.size) (hg : g.Shown rows) (hh : h.Shown rows) :
    g = h :=
  ext_adjacent hsize fun c t => Bool.eq_iff_iff.2 ((hg c t).trans (hh c t).symm)

theorem read_reads : Text.Rows.Reads read fun taken g =>
    ∃ word rows, taken.map Text.Row.words = [word] :: rows ∧ Writes longBound word g.size ∧
      countable g.size = true ∧ IsAdjacency g.size rows ∧ g.Shown rows := by
  constructor
  · intro rows lineCount g r h
    obtain ⟨⟨n, r₁⟩, hsize, h⟩ := bind_eq_ok_iff.1 h
    obtain ⟨⟨values, r₂⟩, hmatrix, h⟩ := bind_eq_ok_iff.1 h
    obtain ⟨rfl, rfl⟩ := Prod.mk.inj (Except.ok.inj h)
    obtain ⟨header, _, rfl, rfl, word, hword, hn, hcount⟩ := readSize_reads.sound hsize
    obtain ⟨taken, rest, rfl, rfl, hsquare, hbits, rfl⟩ :=
      (Text.Rows.square_reads .adjacency readEntry_eq_ok_iff).sound hmatrix
    have hrows : IsAdjacency n (taken.map Text.Row.words) := ⟨hsquare, hbits⟩
    refine ⟨header ++ taken, rest, (List.append_assoc ..).symm, rfl, word, _, ?_, hn, hcount,
      hrows, hrows.shown_tabulate⟩
    rw [List.map_append, hword, List.singleton_append]
  · rintro taken g ⟨word, _, htaken, hn, hcount, hrows, hshown⟩ rest lineCount
    obtain ⟨header, others, rfl, hheader, rfl⟩ := List.map_eq_cons_iff.1 htaken
    have hsize := readSize_reads.take [header] g.size
      ⟨word, congrArg (fun ws => [ws]) hheader, hn, hcount⟩ (others ++ rest) lineCount
    have hmatrix := (Text.Rows.square_reads .adjacency readEntry_eq_ok_iff).take others _
      ⟨hrows.square, hrows.bits, rfl⟩ rest lineCount
    rw [read, List.cons_append, ← List.singleton_append, hsize, ok_bind]
    simp only [hmatrix, ok_bind]
    exact congrArg (fun g => Except.ok (g, _)) (Shown.unique rfl hrows.shown_tabulate hshown)

end Graph

section Defects

variable {α β : Type}

def NoDefect (x : Except RoutingError α) : Prop := ∀ d, x ≠ .error (.defect d)

theorem noDefect_ok (a : α) : NoDefect (.ok a) := by
  rintro d ⟨⟩

theorem NoDefect.bind {x : Except RoutingError α} {f : α → Except RoutingError β}
    (hx : NoDefect x) (hf : ∀ a, x = .ok a → NoDefect (f a)) : NoDefect (x >>= f) := by
  intro d h
  rcases bind_eq_error_iff.1 h with h | ⟨a, ha, h⟩
  · exact hx d h
  · exact hf a ha d h

theorem NoDefect.mapM {f : α → Except RoutingError β} {l : List α}
    (h : ∀ a ∈ l, NoDefect (f a)) : NoDefect (l.mapM f) := by
  intro d hd
  obtain ⟨a, ha, hf⟩ := exists_of_mapM_error hd
  exact h a ha d hf

namespace Text.Rows

theorem noDefect_next (kind : RowKind) (r : Rows) : NoDefect (r.next kind) := by
  unfold next
  split <;> rintro d ⟨⟩

theorem noDefect_finish (r : Rows) : NoDefect r.finish := by
  unfold finish
  split <;> rintro d ⟨⟩

theorem noDefect_matrix {kind : RowKind} {n left : Nat}
    {entry : Nat → Nat → Nat → List Char → Except RoutingError α}
    (h : ∀ i line j word, NoDefect (entry i line j word)) (r : Rows) :
    NoDefect (matrix kind n entry left r) := by
  induction left generalizing r with
  | zero => exact noDefect_ok _
  | succ left ih =>
    refine (noDefect_next kind r).bind fun ⟨row, r⟩ _ => ?_
    have hentries : NoDefect (entries n (n - (left + 1)) (entry (n - (left + 1))) row) := by
      unfold entries
      split_ifs
      · rintro d ⟨⟩
      · exact NoDefect.mapM fun a _ => h _ _ _ _
    exact hentries.bind fun _ _ => (ih r).bind fun _ _ => noDefect_ok _

end Text.Rows

namespace Graph

theorem noDefect_readEntry (row line column : Nat) (word : List Char) :
    NoDefect (readEntry row line column word) := by
  unfold readEntry
  split_ifs <;> rintro d ⟨⟩

/-- A graph is read without a defect when the size in the first row, if one stands there, has a
matrix that fits memory. -/
theorem noDefect_read {r : Text.Rows}
    (h : ∀ word rest n, r.rows.map Text.Row.words = [word] :: rest →
      Text.Writes longBound word n → countable n = true) : NoDefect (read r) := by
  have hsize : NoDefect (readSize r) := by
    refine (Text.Rows.noDefect_next .count r).bind fun ⟨header, r'⟩ hheader => ?_
    obtain ⟨_, rest, hrows, -, rfl⟩ := (Text.Rows.next_reads .count).sound hheader
    dsimp only
    split
    · next word hword =>
      split
      · rintro d ⟨⟩
      · next n hn =>
        have hcount : countable n = true := by
          refine h word (rest.map Text.Row.words) n ?_ (Text.natBelow?_eq_some_iff.1 hn)
          rw [hrows, List.map_append, List.map_singleton, hword, List.singleton_append]
        rw [if_pos hcount]
        exact noDefect_ok _
    · rintro d ⟨⟩
  refine hsize.bind fun ⟨n, r'⟩ _ => ?_
  exact (Text.Rows.noDefect_matrix noDefect_readEntry r').bind fun _ _ => noDefect_ok _

end Graph

end Defects

end QubitRouting
