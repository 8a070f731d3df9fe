import QubitRouting.Proofs.Device.Coupling

/-!
The distance on a device as a metric: it is the least number of edges of a walk along edges of
either direction, and every two qubits have one exactly when the device is one component.
-/

namespace QubitRouting.Graph

variable {g : Graph} {a b c : Qubit}

def walkLengths (g : Graph) (a b : Qubit) : Set Nat :=
  {n | ∃ w : g.coupling.Walk a b, w.length = n}

theorem edist_eq_iff_isLeast {k : Nat} :
    g.coupling.edist a b = k ↔ IsLeast (g.walkLengths a b) k := by
  constructor
  · intro hk
    refine ⟨SimpleGraph.exists_walk_of_edist_eq_coe hk, ?_⟩
    rintro n ⟨w, rfl⟩
    have hle := SimpleGraph.edist_le w
    rwa [hk, Nat.cast_le] at hle
  · rintro ⟨⟨w, rfl⟩, hleast⟩
    refine le_antisymm (SimpleGraph.edist_le w) ?_
    obtain ⟨w', hw'⟩ := (w.reachable).exists_walk_length_eq_edist
    rw [← hw', Nat.cast_le]
    exact hleast ⟨w', rfl⟩

theorem reachable_iff_walkLengths : g.coupling.Reachable a b ↔ g.walkLengths a b ≠ ∅ := by
  rw [← Set.nonempty_iff_ne_empty]
  constructor
  · rintro ⟨w⟩
    exact ⟨w.length, w, rfl⟩
  · rintro ⟨-, w, -⟩
    exact ⟨w⟩

theorem distance?_eq_none_iff :
    g.distance? a b = none ↔ g.size ≤ a ∨ g.size ≤ b ∨ g.walkLengths a b = ∅ := by
  rw [← Option.not_isSome_iff_eq_none, isSome_distance?_iff, reachable_iff_walkLengths]
  simp only [not_and_or, not_lt, not_not]

theorem distance?_comm (g : Graph) (a b : Qubit) : g.distance? a b = g.distance? b a := by
  refine Option.ext fun k => ?_
  rw [distance?_eq_some_iff, distance?_eq_some_iff, SimpleGraph.edist_comm, and_left_comm]

theorem distance?_triangle {i j : Nat} (hab : g.distance? a b = some i)
    (hbc : g.distance? b c = some j) : ∃ k ≤ i + j, g.distance? a c = some k := by
  obtain ⟨ha, -, hi⟩ := distance?_eq_some_iff.1 hab
  obtain ⟨-, hc, hj⟩ := distance?_eq_some_iff.1 hbc
  have hle : g.coupling.edist a c ≤ (i + j : Nat) := by
    rw [Nat.cast_add, ← hi, ← hj]
    exact SimpleGraph.edist_triangle
  obtain ⟨k, hk⟩ := ENat.ne_top_iff_exists.1 (ne_top_of_le_ne_top (ENat.natCast_ne_top _) hle)
  rw [← hk, Nat.cast_le] at hle
  exact ⟨k, hle, distance?_eq_some_iff.2 ⟨ha, hc, hk.symm⟩⟩

theorem forall_isSome_distance?_iff :
    (∀ a b, a < g.size → b < g.size → (g.distance? a b).isSome) ↔ g.isConnected = true := by
  rw [isConnected_iff]
  refine forall₄_congr fun a b ha hb => ?_
  rw [isSome_distance?_iff]
  exact ⟨fun h => h.2.2, fun h => ⟨ha, hb, h⟩⟩

/-- The search is exact on every device: it gives the least number of edges of a walk along edges of
either direction, and nothing where a qubit is not on the device or no walk exists. So the distance
is a metric, and all qubits have one exactly when the device is connected, which it is when there is
one component or at most one qubit. -/
theorem distance_exact (g : Graph) :
    (∀ a b k, g.distance? a b = some k ↔
      a < g.size ∧ b < g.size ∧ IsLeast (g.walkLengths a b) k) ∧
    (∀ a b, g.distance? a b = none ↔ g.size ≤ a ∨ g.size ≤ b ∨ g.walkLengths a b = ∅) ∧
    (∀ a b, g.distance? a b = g.distance? b a) ∧
    (∀ a b c i j, g.distance? a b = some i → g.distance? b c = some j →
      ∃ k ≤ i + j, g.distance? a c = some k) ∧
    ((∀ a b, a < g.size → b < g.size → (g.distance? a b).isSome) ↔ g.isConnected = true) ∧
    (g.isConnected = true ↔ g.size ≤ 1 ∨ g.components = 1) := by
  refine ⟨fun a b k => ?_, fun a b => distance?_eq_none_iff, distance?_comm g,
    fun a b c i j => distance?_triangle, forall_isSome_distance?_iff, isConnected_iff_components⟩
  rw [distance?_eq_some_iff, edist_eq_iff_isLeast]

/-- Along a row of four qubits, where the ends are three edges apart against the direction too. -/
theorem distance_along_row :
    IsLeast ((row 4).walkLengths 3 0) 3 ∧ (row 4).components = 1 ∧
      ∃ k ≤ 2 + 1, (row 4).distance? 3 0 = some k := by
  obtain ⟨hleast, -, -, htriangle, -, hcomponents⟩ := distance_exact (row 4)
  have hends : (row 4).distance? 3 0 = some 3 := by decide +kernel
  have hconnected : (row 4).isConnected = true := by decide +kernel
  refine ⟨((hleast 3 0 3).1 hends).2.2, (hcomponents.1 hconnected).resolve_left (by decide), ?_⟩
  exact htriangle 3 1 0 2 1 (by decide +kernel) (by decide +kernel)

end QubitRouting.Graph
