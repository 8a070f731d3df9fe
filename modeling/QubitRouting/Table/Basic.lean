import QubitRouting.Search.Cheapest

/-!
Routing tables: for every ordered pair of different qubits of a device the complete path of its CNOT
and the price of that path. A table is shown as the matrix of its costs, under and beside the
numbers of the qubits.
-/

namespace QubitRouting

/-- The path of a CNOT with the undoing of its relays, and the number of gates that it adds. -/
structure RoutingEntry where
  cost : Nat
  path : Path
  deriving DecidableEq, Repr, Inhabited

structure RoutingTable where
  graph : Graph
  entries : List ((Qubit × Qubit) × RoutingEntry)
  /-- The entries are those of all ordered pairs, row by row. -/
  covers : entries.map Prod.fst = Graph.orderedPairs graph.size
  deriving DecidableEq

namespace RoutingTable

def size (t : RoutingTable) : Nat := t.graph.size

def get? (t : RoutingTable) (control target : Qubit) : Option RoutingEntry :=
  t.entries.lookup (control, target)

def cost? (t : RoutingTable) (control target : Qubit) : Option Nat :=
  (t.get? control target).map RoutingEntry.cost

def costMatrix (t : RoutingTable) : List (List Nat) :=
  t.graph.qubits.map fun v => t.graph.qubits.map fun w => (t.cost? v w).getD 0

def entryOf (g : Graph) (limit : Option Nat) (control target : Qubit) :
    Except RoutingError RoutingEntry :=
  if g.adjacent control target then .ok ⟨0, [.nop control target]⟩
  else do
    let (cost, p) ← g.cheapest limit control target
    return ⟨cost, p.complete⟩

def forPairs (f : Qubit → Qubit → Except RoutingError α) :
    (pairs : List (Qubit × Qubit)) →
      Except RoutingError { es : List ((Qubit × Qubit) × α) // es.map Prod.fst = pairs }
  | [] => .ok ⟨[], rfl⟩
  | (v, w) :: rest => do
    let value ← f v w
    let ⟨es, h⟩ ← forPairs f rest
    return ⟨((v, w), value) :: es, by simp [h]⟩

def build (g : Graph) (limit : Option Nat) : Except RoutingError RoutingTable := do
  let ⟨entries, covers⟩ ← forPairs (entryOf g limit) (Graph.orderedPairs g.size)
  return ⟨g, entries, covers⟩

def padLeft (width : Nat) (text : String) : String :=
  String.ofList (List.replicate (width - text.length) ' ') ++ text

def cellWidth (t : RoutingTable) : Nat :=
  let lengths := t.costMatrix.flatten.map fun c => (toString c).length
  lengths.foldl max (toString t.size).length + 1

def text (t : RoutingTable) : String :=
  let cell := padLeft t.cellWidth
  let header := cell "" :: t.graph.qubits.map fun w => cell (toString w)
  let row (v : Qubit) : List String :=
    cell (toString v) ::
      t.graph.qubits.map fun w => cell ((t.cost? v w).elim "-" toString)
  String.join ((header :: t.graph.qubits.map row).map fun cells => String.join cells ++ "\n")

end RoutingTable

end QubitRouting
