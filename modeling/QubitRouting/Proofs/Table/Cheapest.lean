import QubitRouting.Proofs.Table.Entries

/-!
The entries of pairs without a native CNOT against the exhaustive search: each is the first
candidate of least round trip cost, whatever the pruned search has turned away.
-/

namespace QubitRouting.RoutingTable

open QubitRouting.Graph

variable {g : Graph} {limit : Option Nat} {t : RoutingTable} {v w : Qubit}

theorem exists_choice (ht : build g limit = .ok t) (hv : v < g.size) (hw : w < g.size)
    (hvw : v ≠ w) (hn : g.adjacent v w = false) :
    ∃ e p, t.get? v w = some e ∧ FirstLeast (g.candidates limit v w) e.cost p ∧
      e.path = p.complete := by
  obtain ⟨e, he, hentry⟩ := exists_entry ht hv hw hvw
  have hfits : g.cheapest limit v w ≠ .error (.defect .overflow) := by
    intro ho
    rw [entryOf_of_error hn ho] at hentry
    cases hentry
  rcases cheapest_of_fits hvw hv hw hfits with ⟨-, herror⟩ | ⟨cost, p, hok, first⟩
  · rw [entryOf_of_error hn herror] at hentry
    cases hentry
  · rw [entryOf_of_cheapest hn hok] at hentry
    obtain rfl := Except.ok.inj hentry
    exact ⟨_, p, he, first, rfl⟩

/-- The pruned search stores what the exhaustive search would choose: the least cost of all
candidates, and of those with this cost the one that is found first. -/
theorem entry_is_first_least (ht : build g limit = .ok t) (hv : v < g.size) (hw : w < g.size)
    (hvw : v ≠ w) (hn : g.adjacent v w = false) :
    ∃ e p, t.get? v w = some e ∧
      ((g.candidates limit v w).map Path.roundTrip).min? = some e.cost ∧
      (g.candidates limit v w).find? (fun q => q.roundTrip = e.cost) = some p ∧
      e.path = p.complete := by
  obtain ⟨e, p, he, first, hpath⟩ := exists_choice ht hv hw hvw hn
  exact ⟨e, p, he, first.min?_eq, first.first, hpath⟩

/-- Against the direction of a row of four qubits all four paths cost the same. The first is chosen,
and its two relays are undone, the last one first. -/
theorem entry_of_row : ∃ t, build (row 4) none = .ok t ∧
    t.get? 3 0 = some ⟨28, [.tab 0 1, .cba 3 2, .flip 2 1] ++
      [(Move.cba 3 2).inverse, (Move.tab 0 1).inverse]⟩ := by
  obtain ⟨t, ht⟩ := exists_build_long_row
  obtain ⟨e, p, he, hcost, hfirst, hpath⟩ :=
    entry_is_first_least (v := 3) (w := 0) ht (by decide) (by decide) (by decide) (by decide)
  have hleast : (((row 4).candidates none 3 0).map Path.roundTrip).min? = some 28 := by
    decide +kernel
  have hfound : ((row 4).candidates none 3 0).find? (fun q => q.roundTrip = 28) =
      some [.tab 0 1, .cba 3 2, .flip 2 1] := by decide +kernel
  obtain ⟨cost, path⟩ := e
  obtain rfl : 28 = cost := Option.some.inj (hleast.symm.trans hcost)
  obtain rfl : [.tab 0 1, .cba 3 2, .flip 2 1] = p := Option.some.inj (hfound.symm.trans hfirst)
  obtain rfl : path = [.tab 0 1, .cba 3 2, .flip 2 1] ++ _ := hpath
  exact ⟨t, ht, he⟩

end QubitRouting.RoutingTable
