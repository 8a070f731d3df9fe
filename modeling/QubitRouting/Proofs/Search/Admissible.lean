import QubitRouting.Proofs.Search.Events

/-!
What the bound of a search says about a state that the search shows. No path that starts with the
moves of the state costs less than the bound, whether or not its relays are merged, and the bound
does not fall when moves are added.
-/

namespace QubitRouting.Graph

open SearchEvent

variable {g : Graph} {limit : Option Nat} {c t : Qubit} {relays moves : List Move}

theorem lowerBound_le_of_prefix (h : relays <+: moves) : lowerBound relays ≤ lowerBound moves := by
  obtain ⟨rest, rfl⟩ := h
  induction rest using List.reverseRecOn with
  | nil => rw [List.append_nil]
  | append_singleton rest m ih =>
    rw [← List.append_assoc]
    exact ih.trans (lowerBound_le_concat _ m)

/-- A search is shown a state only for different places on the device. -/
theorem reaches_of_mem_searchEvents (h : .enter relays ∈ g.searchEvents limit (fun _ => true) c t) :
    (c ≠ t ∧ c < g.size ∧ t < g.size) ∧
      ∃ u, g.Reaches limit (g.searchStart c t) u ∧ u.relays = relays := by
  rw [searchEvents_true, events] at h
  split_ifs at h with hon
  · exact ⟨hon, mem_shown.1 (List.mem_filterMap.2 ⟨_, h, rfl⟩)⟩
  · cases h

/-- A path that starts with relays has these among its relays: its last move is none. -/
theorem prefix_of_prefix_concat {last : Move} (hrelays : Path.Relays relays)
    (hlast : last.isTerminal = true) (h : relays <+: moves ++ [last]) : relays <+: moves := by
  rcases List.prefix_concat_iff.1 h with rfl | h
  · have hrelay := hrelays last (by simp)
    rw [hlast] at hrelay
    cases hrelay
  · exact h

theorem isTerminal_of_terminal? {last : Move} (h : g.terminal? c t = some last) :
    last.isTerminal = true := by
  rcases terminal?_eq_some h with ⟨-, rfl⟩ | ⟨-, rfl⟩ <;> rfl

/-- For the moves of any state that a search shows, the bound is at most the round trip cost of
every path of the search that starts with them, and of its merging if it has one; and it is at most
the bound of any moves that start with them. -/
theorem lowerBound_admissible (g : Graph) (limit : Option Nat) (c t : Qubit) (relays : List Move)
    (h : .enter relays ∈ g.searchEvents limit (fun _ => true) c t) :
    (∀ p ∈ g.enumerate limit c t, relays <+: p →
      lowerBound relays ≤ p.roundTrip ∧
      ∀ merged ∈ p.mergeRelays?, lowerBound relays ≤ merged.roundTrip) ∧
    ∀ moves, relays <+: moves → lowerBound relays ≤ lowerBound moves := by
  obtain ⟨⟨hct, hc, ht⟩, u, hreach, rfl⟩ := reaches_of_mem_searchEvents h
  have start := start_invariant hct hc ht
  refine ⟨fun p hp hprefix => ?_, fun moves => lowerBound_le_of_prefix⟩
  rw [enumerate_eq g limit hct hc ht] at hp
  obtain ⟨w, last, hw, hlast, rfl⟩ := mem_pathsFrom hp
  have leads := (reaches_invariant start hw).leads
  have hbelow : lowerBound u.relays ≤ lowerBound w.relays := by
    apply lowerBound_le_of_prefix
    exact prefix_of_prefix_concat (reaches_invariant start hreach).leads.isRelays
      (isTerminal_of_terminal? hlast) hprefix
  constructor
  · exact hbelow.trans (leads.lowerBound_le_roundTrip hlast)
  · intro merged hm
    exact hbelow.trans (leads.lowerBound_le_merged hct hlast hm)

/-- On a row of four qubits the merging of the control's walk costs just what is charged for it. -/
theorem lowerBound_reached_on_row :
    .enter [.cab 0 1, .cab 1 2] ∈ (row 4).searchEvents none (fun _ => true) 0 3 ∧
    lowerBound [.cab 0 1, .cab 1 2] ≤ Path.roundTrip [.cnot3 1 2 3, .cnot3 0 1 3] ∧
    Path.roundTrip [.cnot3 1 2 3, .cnot3 0 1 3] = 15 ∧ lowerBound [.cab 0 1, .cab 1 2] = 15 := by
  have shown : .enter [.cab 0 1, .cab 1 2] ∈
      (row 4).searchEvents none (fun _ => true) 0 3 := by
    decide +kernel
  have found : [.cab 0 1, .cab 1 2, .nop 2 3] ∈ (row 4).enumerate none 0 3 := by
    decide +kernel
  obtain ⟨hpaths, -⟩ := lowerBound_admissible (row 4) none 0 3 _ shown
  obtain ⟨-, hmerged⟩ := hpaths _ found ⟨[.nop 2 3], rfl⟩
  exact ⟨shown, hmerged _ (by decide), by decide, by decide⟩

/-- The moves have to be those of a state: of control relays that do not lead on from each other
only the last can be merged, and then it is cheaper than what is charged for a run. -/
example : lowerBound [.cab 5 6, .cab 7 8, .cab 1 2] = 36 ∧
    Path.mergeRelays? [.cab 5 6, .cab 7 8, .cab 1 2, .nop 2 3] =
      some [.cab 5 6, .cab 7 8, .cnot3 1 2 3] ∧
    Path.roundTrip [.cab 5 6, .cab 7 8, .cnot3 1 2 3] = 27 := by
  decide

end QubitRouting.Graph
