import QubitRouting.Proofs.Table.Entries

/-!
When a graph has a table. As long as no cost leaves its width, there is one exactly when every pair
of qubits is in reach of each other within the limit; without a limit, when the device is connected.
The first pair out of reach is the one that is reported.
-/

namespace QubitRouting

theorem Path.Core.ne_nil {g : Graph} {c t : Qubit} {p : Path} (h : Path.Core g c t p) : p ≠ [] := by
  cases h with
  | native _ => exact List.cons_ne_nil _ _
  | reversed _ => exact List.cons_ne_nil _ _
  | nested hne _ _ => exact hne

namespace Graph

variable {g : Graph} {limit : Option Nat} {v w : Qubit}

theorem Routes.complete_ne_nil {p : Path} (h : g.Routes v w p) : p.complete ≠ [] := by
  obtain ⟨relays, core, _, _, _, hcore, rfl⟩ := h
  simp [Path.complete, hcore.ne_nil]

theorem inReach_of_adjacent (h : g.adjacent v w = true) : g.InReach limit v w := by
  have hadj : g.coupling.Adj v w := Bool.or_eq_true_iff.2 (Or.inl h)
  exact ⟨1, SimpleGraph.edist_eq_one_iff_adj.2 hadj, fun k _ => Nat.zero_le k⟩

theorem inReach_none_iff : g.InReach none v w ↔ g.coupling.Reachable v w := by
  rw [← SimpleGraph.edist_ne_top_iff_reachable, ENat.ne_top_iff_exists]
  simp [InReach, eq_comm]

theorem InReach.mono {larger : Option Nat} (h : g.InReach limit v w)
    (hl : ∀ k ∈ larger, ∃ j ∈ limit, j ≤ k) : g.InReach larger v w := by
  obtain ⟨d, hd, hlimit⟩ := h
  refine ⟨d, hd, fun k hk => ?_⟩
  obtain ⟨j, hj, hjk⟩ := hl k hk
  exact (hlimit j hj).trans hjk

structure FirstOutOfReach (g : Graph) (limit : Option Nat) (v w : Qubit) : Prop where
  control_lt : v < g.size
  target_lt : w < g.size
  apart : v ≠ w
  out : ¬ g.InReach limit v w
  first : ∀ a b, a < g.size → b < g.size → a ≠ b → Before (a, b) (v, w) → g.InReach limit a b

end Graph

namespace RoutingTable

open QubitRouting.Graph

variable {g : Graph} {limit : Option Nat} {v w : Qubit}

/-- Unless a cost leaves its width, a pair has an entry when it is in reach, and else it is
reported. -/
theorem entryOf_cases (limit : Option Nat) (hv : v < g.size) (hw : w < g.size) (hvw : v ≠ w) :
    entryOf g limit v w = .error (.defect .overflow) ∨
      (g.InReach limit v w ∧ ∃ e, entryOf g limit v w = .ok e ∧ e.path ≠ []) ∨
      (¬ g.InReach limit v w ∧ entryOf g limit v w = .error (.unreachable v w)) := by
  cases hn : g.adjacent v w with
  | true =>
    refine Or.inr (Or.inl ⟨inReach_of_adjacent hn, ⟨0, [.nop v w]⟩, ?_, List.cons_ne_nil _ _⟩)
    rw [entryOf, if_pos hn]
  | false =>
    by_cases hfits : g.cheapest limit v w = .error (.defect .overflow)
    · exact Or.inl (entryOf_of_error hn hfits)
    · have hreach := candidates_ne_nil_iff limit hvw hv hw
      rcases cheapest_of_fits hvw hv hw hfits with ⟨hnil, herror⟩ | ⟨cost, p, hok, first⟩
      · exact Or.inr (Or.inr ⟨fun h => hreach.2 h hnil, entryOf_of_error hn herror⟩)
      · have hroutes := routes_of_mem_candidates hvw hv hw first.mem
        refine Or.inr (Or.inl ⟨hreach.1 (List.ne_nil_of_mem first.mem), _,
          entryOf_of_cheapest hn hok, hroutes.complete_ne_nil⟩)

theorem inReach_of_entry {e : RoutingEntry} (hv : v < g.size) (hw : w < g.size) (hvw : v ≠ w)
    (h : entryOf g limit v w = .ok e) : g.InReach limit v w ∧ e.path ≠ [] := by
  rcases entryOf_cases limit hv hw hvw with ho | ⟨hreach, e', he', hpath⟩ | ⟨-, ho⟩
  · rw [h] at ho
    cases ho
  · obtain rfl : e = e' := Except.ok.inj (h.symm.trans he')
    exact ⟨hreach, hpath⟩
  · rw [h] at ho
    cases ho

theorem build_cases (hfits : build g limit ≠ .error (.defect .overflow)) :
    ((∃ t, build g limit = .ok t) ∧
      ∀ v w, v < g.size → w < g.size → v ≠ w → g.InReach limit v w) ∨
    ∃ v w, g.FirstOutOfReach limit v w ∧ build g limit = .error (.unreachable v w) := by
  cases hfind : (orderedPairs g.size).find? fun p => !(entryOf g limit p.1 p.2).isOk with
  | none =>
    have hall : ∀ p ∈ orderedPairs g.size, ∃ e, entryOf g limit p.1 p.2 = .ok e := by
      intro p hp
      exact isOk_iff.1 (by simpa using List.find?_eq_none.1 hfind p hp)
    refine Or.inl ⟨build_ok hall, fun v w hv hw hvw => ?_⟩
    obtain ⟨e, he⟩ := hall (v, w) (mem_orderedPairs.2 ⟨hv, hw, hvw⟩)
    exact (inReach_of_entry hv hw hvw he).1
  | some p =>
    obtain ⟨v, w⟩ := p
    obtain ⟨hbad, before, after, hsplit, hbefore⟩ := List.find?_eq_some_iff_append.1 hfind
    obtain ⟨hv, hw, hvw⟩ := mem_orderedPairs.1 (List.mem_of_find?_eq_some hfind)
    have hentries : ∀ q ∈ before, ∃ e, entryOf g limit q.1 q.2 = .ok e := by
      intro q hq
      exact isOk_iff.1 (by simpa using hbefore q hq)
    rcases entryOf_cases limit hv hw hvw with ho | ⟨-, e, he, -⟩ | ⟨hout, herror⟩
    · exact absurd (build_error hsplit hentries ho) hfits
    · rw [isOk_iff.2 ⟨e, he⟩] at hbad
      cases hbad
    · refine Or.inr ⟨v, w, ⟨hv, hw, hvw, hout, ?_⟩, build_error hsplit hentries herror⟩
      intro a b ha hb hab hbefore
      have hmem := (mem_of_split hsplit).2 ⟨mem_orderedPairs.2 ⟨ha, hb, hab⟩, hbefore⟩
      obtain ⟨e, he⟩ := hentries (a, b) hmem
      exact (inReach_of_entry ha hb hab he).1

theorem build_ok_iff (hfits : build g limit ≠ .error (.defect .overflow)) :
    (∃ t, build g limit = .ok t) ↔
      ∀ v w, v < g.size → w < g.size → v ≠ w → g.InReach limit v w := by
  rcases build_cases hfits with ⟨hok, hreach⟩ | ⟨v, w, out, herror⟩
  · exact iff_of_true hok hreach
  · refine iff_of_false ?_ fun h => out.out (h v w out.control_lt out.target_lt out.apart)
    rintro ⟨t, ht⟩
    rw [herror] at ht
    cases ht

theorem build_none_ok_iff (hfits : build g none ≠ .error (.defect .overflow)) :
    (∃ t, build g none = .ok t) ↔ g.isConnected = true := by
  rw [build_ok_iff hfits, isConnected_iff]
  simp only [inReach_none_iff]
  constructor
  · intro h a b ha hb
    by_cases hab : a = b
    · exact hab ▸ .refl _
    · exact h a b ha hb hab
  · exact fun h v w hv hw _ => h v w hv hw

theorem exists_cheapest_overflow (h : build g limit = .error (.defect .overflow)) :
    ∃ v w, v < g.size ∧ w < g.size ∧ v ≠ w ∧
      g.cheapest limit v w = .error (.defect .overflow) := by
  obtain ⟨⟨v, w⟩, hp, he⟩ := exists_of_build_error h
  obtain ⟨hv, hw, hvw⟩ := mem_orderedPairs.1 hp
  refine ⟨v, w, hv, hw, hvw, ?_⟩
  cases hn : g.adjacent v w with
  | true =>
    rw [entryOf, if_pos hn] at he
    cases he
  | false =>
    rw [entryOf, if_neg (by simp [hn]), bind_eq_error_iff] at he
    rcases he with hc | ⟨choice, -, he⟩
    · exact hc
    · cases he

theorem build_fits_of_few (hsize : g.size ≤ deviceBound)
    (hfew : g.size ≤ 31 ∨ ∃ k ∈ limit, k ≤ 29) :
    build g limit ≠ .error (.defect .overflow) := by
  intro ho
  obtain ⟨v, w, hv, hw, hvw, hc⟩ := exists_cheapest_overflow ho
  exact cheapest_fits hvw hv hw hsize hfew hc

theorem build_fits (hsize : g.size ≤ 31) : build g limit ≠ .error (.defect .overflow) :=
  build_fits_of_few (hsize.trans (by decide)) (Or.inl hsize)

/-- There is a table exactly when all pairs are in reach, and then it has all entries; else the
first pair out of reach is reported. Three notions of connection coincide: distances by a
breadth-first search, components, and the paths of the directed search. -/
theorem build_complete (g : Graph) :
    (g.size ≤ 31 → ∀ limit, build g limit ≠ .error (.defect .overflow)) ∧
    (∀ v w d, g.distance? v w = some d ↔
      v < g.size ∧ w < g.size ∧ g.coupling.edist v w = d) ∧
    (g.isConnected = true ↔ g.size ≤ 1 ∨ g.components = 1) ∧
    ∀ limit, build g limit ≠ .error (.defect .overflow) →
      ((∃ t, build g limit = .ok t) ↔
        ∀ v w, v < g.size → w < g.size → v ≠ w → g.InReach limit v w) ∧
      (∀ t, build g limit = .ok t → ∀ v w,
        ((t.get? v w).isSome ↔ v < g.size ∧ w < g.size ∧ v ≠ w) ∧
        ∀ e, t.get? v w = some e → e.path ≠ []) ∧
      ((¬ ∃ t, build g limit = .ok t) →
        ∃ v w, g.FirstOutOfReach limit v w ∧ build g limit = .error (.unreachable v w)) ∧
      (limit = none → ((∃ t, build g limit = .ok t) ↔ g.isConnected = true)) ∧
      ∀ smaller : Option Nat, (∀ k ∈ limit, ∃ j ∈ smaller, j ≤ k) →
        (∃ t, build g smaller = .ok t) → ∃ t, build g limit = .ok t := by
  refine ⟨fun hsize limit => build_fits hsize, fun v w d => distance?_eq_some_iff,
    isConnected_iff_components, fun limit hfits => ?_⟩
  refine ⟨build_ok_iff hfits, ?_, ?_, ?_, ?_⟩
  · intro t ht v w
    have hsome : (t.get? v w).isSome ↔ v < g.size ∧ w < g.size ∧ v ≠ w := by
      rw [isSome_get?_iff, size, build_graph ht]
    refine ⟨hsome, fun e he => ?_⟩
    obtain ⟨hv, hw, hvw⟩ := hsome.1 (Option.isSome_iff_exists.2 ⟨e, he⟩)
    exact (inReach_of_entry hv hw hvw (entryOf_of_get? ht he)).2
  · intro hno
    exact (build_cases hfits).resolve_left fun h => hno h.1
  · rintro rfl
    exact build_none_ok_iff hfits
  · rintro smaller hle ⟨t, ht⟩
    have hsmall : build g smaller ≠ .error (.defect .overflow) := by
      rw [ht]
      intro hbad
      cases hbad
    rw [build_ok_iff hfits]
    intro v w hv hw hvw
    exact ((build_ok_iff hsmall).1 ⟨t, ht⟩ v w hv hw hvw).mono hle

/-- A row of three qubits is one component; without relays its ends are out of reach. -/
theorem build_row : (∃ t, build (row 3) none = .ok t) ∧ (row 3).components = 1 ∧
    ∃ v w, (row 3).FirstOutOfReach (some 0) v w ∧
      build (row 3) (some 0) = .error (.unreachable v w) := by
  obtain ⟨hfits, -, hcomponents, hall⟩ := build_complete (row 3)
  have hsize : (row 3).size ≤ 31 := by decide
  have hconnected : (row 3).isConnected = true := by decide +kernel
  obtain ⟨-, -, -, hnone, -⟩ := hall none (hfits hsize none)
  obtain ⟨-, -, herror, -, -⟩ := hall (some 0) (hfits hsize (some 0))
  refine ⟨(hnone rfl).2 hconnected, (hcomponents.1 hconnected).resolve_left (by decide), ?_⟩
  refine herror fun htable => ?_
  have hno : (build (row 3) (some 0)).isOk = false := by decide +kernel
  rw [isOk_iff.2 htable] at hno
  cases hno

end RoutingTable

end QubitRouting
