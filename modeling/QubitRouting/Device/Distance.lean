import QubitRouting.Device.Graph

/-!
Distances on a device, along edges of either direction, by a breadth-first search.
-/

namespace QubitRouting.Graph

def neighbours (g : Graph) (q : Qubit) (among : List Qubit) : List Qubit :=
  among.filter (g.coupled q)

def others (g : Graph) (q : Qubit) (among : List Qubit) : List Qubit :=
  among.filter (!g.coupled q ·)

theorem length_neighbours_add_others (g : Graph) (q : Qubit) (among : List Qubit) :
    (g.neighbours q among).length + (g.others q among).length = among.length := by
  rw [neighbours, others, ← List.countP_eq_length_filter, ← List.countP_eq_length_filter,
    among.length_eq_countP_add_countP (g.coupled q)]
  simp

/-- The distance at which a search meets the goal. The queue holds the qubits that are still to be
left, each with its distance from the start; a qubit is no longer unseen once it is queued. -/
def search (g : Graph) (goal : Qubit) :
    (queue : List (Qubit × Nat)) → (unseen : List Qubit) → Option Nat
  | [], _ => none
  | (q, d) :: queue, unseen =>
    if goal ∈ g.neighbours q unseen then some (d + 1)
    else
      search g goal (queue ++ (g.neighbours q unseen).map (·, d + 1)) (g.others q unseen)
termination_by queue unseen => queue.length + unseen.length
decreasing_by
  have := g.length_neighbours_add_others q unseen
  simp only [List.length_append, List.length_map, List.length_cons]
  omega

def distance? (g : Graph) (a b : Qubit) : Option Nat :=
  if a < g.size ∧ b < g.size then
    if a = b then some 0 else g.search b [(a, 0)] (g.qubits.filter (· ≠ a))
  else none

def isConnected (g : Graph) : Bool :=
  g.qubits.all fun q => (g.distance? 0 q).isSome

end QubitRouting.Graph
