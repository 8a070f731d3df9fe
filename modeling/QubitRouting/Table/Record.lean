import QubitRouting.Json.Decode
import QubitRouting.Table.Basic

/-!
Routing entries as JSON records. A move is an object that maps its name to its operands, a path the
list of its moves.
-/

namespace QubitRouting

def Move.toJson (m : Move) : Json := .obj [(m.name, .arr (m.qubits.map Json.nat))]

def Move.ofJson? : Json → Option Move
  | .obj [(name, operands)] => do Move.ofParts? name (← operands.list? Json.word?)
  | _ => none

def Path.toJson (p : Path) : Json := .arr (p.map Move.toJson)

def Path.ofJson? (j : Json) : Option Path := j.list? Move.ofJson?

namespace RoutingEntry

def toJson (e : RoutingEntry) : Json := .obj [("cost", .nat e.cost), ("path", e.path.toJson)]

def ofJson? (j : Json) : Option RoutingEntry := do
  match ← j.record? ["cost", "path"] with
  | [cost, path] =>
    return ⟨← Json.required Json.word? cost, ← Json.required Path.ofJson? path⟩
  | _ => none

end RoutingEntry

end QubitRouting
