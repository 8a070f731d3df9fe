import QubitRouting.Relay.Emission
import QubitRouting.Routing.Router
import QubitRouting.Table.Basic

/-!
Routing over a table. A CNOT that is not native is replaced by the gates of its path, between NOT
gates if its control is negative; all other gates are copied.
-/

namespace QubitRouting.RoutingTable

def isControlledNot (g : Gate) : Bool := g.isToffoli && !g.controls.isEmpty

def routeGate (t : RoutingTable) (g : Gate) : Except RoutingError (List Gate) :=
  if !isControlledNot g then .ok [g]
  else do
    let (control, target) ← g.interaction
    if t.size ≤ control.line then throw (.offDevice control.line t.size)
    if t.size ≤ target then throw (.offDevice target t.size)
    if t.graph.adjacent control.line target then return [g]
    match t.get? control.line target with
    | none => throw (.unreachable control.line target)
    | some entry => return control.wrap entry.path.gates

def route (t : RoutingTable) (c : Circuit) : Except RoutingError RoutedCircuit :=
  c.routeBy t.size t.routeGate

def router (t : RoutingTable) : Router := ⟨t.size, t.cost?, t.route⟩

end QubitRouting.RoutingTable
