import QubitRouting.Relay.Emission
import QubitRouting.Routing.Router
import QubitRouting.Template.Method

/-!
Routing with fixed templates. CNOTs and controlled square roots of NOT are replaced according to the
methods of a device, between NOT gates if the control is negative; all other gates are copied.
-/

namespace QubitRouting.MethodMatrix

open Gate (cnot hadamard quarter)

def turned (c t : Qubit) : List Gate := hadamards c t ++ [cnot t c] ++ hadamards c t

/-- The four CNOTs through the hub, with Hadamards wherever an edge points the other way and without
the pairs of Hadamards that cancel. -/
def hubTemplate (c t : Qubit) : RelayMethod → List Gate
  | .direct => [cnot c t]
  | .flipped => turned c t
  | .forwardForward => [cnot c hub, cnot hub t, cnot c hub, cnot hub t]
  | .forwardBackward =>
    [cnot c hub, hadamard hub, hadamard t, cnot t hub, hadamard hub, cnot c hub, hadamard hub,
      cnot t hub, hadamard hub, hadamard t]
  | .backwardForward =>
    [hadamard c, hadamard hub, cnot hub c, hadamard hub, cnot hub t, hadamard hub, cnot hub c,
      hadamard c, hadamard hub, cnot hub t]
  | .backwardBackward =>
    [hadamard c, hadamard hub, hadamard t, cnot hub c, cnot t hub, cnot hub c, cnot t hub,
      hadamard c, hadamard hub, hadamard t]

/-- The exchange of a qubit with the hub over whichever edge they share: three CNOTs, the middle one
turned around. -/
def swapGates (m : MethodMatrix) (q : Qubit) : List Gate :=
  let (a, b) := if m.native q hub then (q, hub) else (hub, q)
  [cnot a b, hadamard a, hadamard b, cnot a b, hadamard a, hadamard b, cnot a b]

def edgeGates (m : MethodMatrix) (c t : Qubit) : Except RoutingError (List Gate) := do
  match ← m.method c t with
  | .direct => return [cnot c t]
  | .flipped => return turned c t
  | _ => throw (.unreachable c t)

/-- The interaction of the hub with one end while the other end is swapped onto the hub. The target
moves where that leaves a native CNOT, else the control. -/
def swapStyle (m : MethodMatrix) (r : RelayMethod) (c t : Qubit) :
    Except RoutingError (List Gate) :=
  match r with
  | .forwardBackward => do return m.swapGates t ++ (← m.edgeGates c hub) ++ m.swapGates t
  | _ => do return m.swapGates c ++ (← m.edgeGates hub t) ++ m.swapGates c

def cnotGates (m : MethodMatrix) (variant : Variant) (c t : Qubit) :
    Except RoutingError (List Gate) := do
  let r ← m.method c t
  match variant with
  | .template => return hubTemplate c t r
  | .swap => if r.isRelay then m.swapStyle r c t else m.edgeGates c t

/-- The controlled square root of NOT, from quarter turns and two CNOTs in the cheaper direction,
between Hadamards on the target. -/
def rootGates (m : MethodMatrix) (variant : Variant) (adjoint : Bool) (c t : Qubit) :
    Except RoutingError (List Gate) := do
  let forward := (← m.method c t).cost variant
  let backward := (← m.method t c).cost variant
  let (x, y) := if forward ≤ backward then (c, t) else (t, c)
  let cnots ← m.cnotGates variant x y
  return [hadamard t, quarter adjoint x, quarter adjoint y] ++ cnots ++
    [quarter (!adjoint) y] ++ cnots ++ [hadamard t]

def routeGate (m : MethodMatrix) (variant : Variant) (g : Gate) :
    Except RoutingError (List Gate) := do
  if let some q := g.lines.find? (templateSize ≤ ·) then throw (.offDevice q templateSize)
  if g.controls.isEmpty then return [g]
  match g.kind with
  | .toffoli =>
    let (control, target) ← g.interaction
    return control.wrap (← m.cnotGates variant control.line target)
  | .v adjoint =>
    let (control, target) ← g.interaction
    return control.wrap (← m.rootGates variant adjoint control.line target)
  | _ => return [g]

def route (m : MethodMatrix) (variant : Variant) (c : Circuit) :
    Except RoutingError RoutedCircuit :=
  c.routeBy templateSize (m.routeGate variant)

def pairCost (m : MethodMatrix) (variant : Variant) (control target : Qubit) : Option Nat :=
  (m.method? control target).map (·.cost variant)

def router (m : MethodMatrix) (variant : Variant) : Router :=
  ⟨templateSize, m.pairCost variant, m.route variant⟩

end QubitRouting.MethodMatrix
