import QubitRouting.Circuit.Basic
import QubitRouting.Circuit.Record
import QubitRouting.Routing.Error

/-!
Routed circuits, and routers, which replace the gates of a circuit so that all its CNOTs are native
to a device.
-/

namespace QubitRouting

inductive SkipReason where
  | routing (lines size : Nat)
  | placement (lines size : Nat)
  | noLayout
  deriving DecidableEq, Repr, Inhabited

def SkipReason.message : SkipReason → String
  | .routing lines size =>
    s!"circuit has {lines} lines but the device has only {size} qubits; routing skipped"
  | .placement lines size =>
    s!"circuit has {lines} lines but the device has only {size} qubits; placement skipped"
  | .noLayout => "no candidate layout"

structure RoutedCircuit where
  circuit : Circuit
  gateCount : Nat
  depth : Nat
  /-- Set when the circuit is the unchanged input. -/
  skipped : Option SkipReason
  deriving DecidableEq, Repr, Inhabited

namespace RoutedCircuit

def ofCircuit (c : Circuit) (skipped : Option SkipReason) : Except RoutingError RoutedCircuit :=
  match c.depth? with
  | none => .error (.defect .lineOutside)
  | some depth => .ok ⟨c, c.gateCount, depth, skipped⟩

def toJson (r : RoutedCircuit) : Json :=
  .obj ([("circuit", r.circuit.toJson), ("gate_count", .nat r.gateCount),
    ("depth", .nat r.depth)] ++ (r.skipped.map fun s => ("skipped", Json.str s.message)).toList)

end RoutedCircuit

namespace Circuit

def replacement (lines : Nat) (f : Gate → Except RoutingError (List Gate)) (g : Gate) :
    Except RoutingError (List Gate) := do
  let gates ← f g
  match gates.findSome? (Gate.fault? lines) with
  | some e => throw (.circuit e)
  | none => return gates

def replaceGates (c : Circuit) (lines : Nat) (f : Gate → Except RoutingError (List Gate)) :
    Except RoutingError Circuit := do
  let parts ← c.gates.mapM (replacement lines f)
  return ⟨c.name, lines, parts.flatten⟩

/-- Routes a circuit gate by gate onto a device; one with more lines than the device has qubits is
left as it is. -/
def routeBy (c : Circuit) (size : Nat) (f : Gate → Except RoutingError (List Gate)) :
    Except RoutingError RoutedCircuit :=
  if size < c.lines then RoutedCircuit.ofCircuit c (some (.routing c.lines size))
  else do RoutedCircuit.ofCircuit (← c.replaceGates size f) none

end Circuit

def Control.wrap (c : Control) (gates : List Gate) : List Gate :=
  if c.positive then gates else .not c.line :: gates ++ [.not c.line]

def Gate.interaction (g : Gate) : Except RoutingError (Control × Qubit) :=
  match g.control?, g.target? with
  | none, _ => .error (.unsupportedGate g.text g.controls.length)
  | some _, none => .error (.defect .noTarget)
  | some control, some target => .ok (control, target)

structure Router where
  size : Nat
  pairCost : Qubit → Qubit → Option Nat
  route : Circuit → Except RoutingError RoutedCircuit

end QubitRouting
