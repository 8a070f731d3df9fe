import QubitRouting.Device.Graph
import QubitRouting.Text.Blank

/-!
Methods for devices of five qubits whose pairs without an edge all meet at one hub. The method of an
ordered pair says how its CNOT is performed: natively, over the reversed edge, or through the hub,
by the directions of the two edges there.
-/

namespace QubitRouting

def templateSize : Nat := 5

/-- The qubit through which pairs without an edge are routed. -/
def hub : Qubit := 2

inductive RelayMethod where
  | direct
  | flipped
  /-- Edges from the control to the hub and from the hub to the target. -/
  | forwardForward
  /-- Edges from the control to the hub and from the target to the hub. -/
  | forwardBackward
  /-- Edges from the hub to the control and from the hub to the target. -/
  | backwardForward
  /-- Edges from the hub to the control and from the target to the hub. -/
  | backwardBackward
  deriving DecidableEq, Repr, Inhabited

inductive Variant where
  /-- An end is swapped onto the hub and back. -/
  | swap
  /-- Four CNOTs, with the Hadamards that they need. -/
  | template
  deriving DecidableEq, Repr, Inhabited

def Variant.name : Variant → String
  | .swap => "swap"
  | .template => "template"

def Variant.ofExactName? : String → Option Variant
  | "swap" => some .swap
  | "template" => some .template
  | _ => none

def Variant.ofName (name : String) : Except RoutingError Variant :=
  let lower := Text.lowerCase name
  match Variant.ofExactName? lower with
  | some v => .ok v
  | none => .error (.settings (.unknownVariant lower))

namespace RelayMethod

def name : RelayMethod → String
  | .direct => "direct"
  | .flipped => "flipped"
  | .forwardForward => "forward_forward"
  | .forwardBackward => "forward_backward"
  | .backwardForward => "backward_forward"
  | .backwardBackward => "backward_backward"

def code : RelayMethod → Nat
  | .direct => 1
  | .flipped => 2
  | .forwardForward => 3
  | .forwardBackward => 4
  | .backwardForward => 5
  | .backwardBackward => 6

def isRelay : RelayMethod → Bool
  | .direct => false
  | .flipped => false
  | _ => true

def cost : RelayMethod → Variant → Nat
  | .direct, _ => 0
  | .flipped, _ => 4
  | .forwardForward, .template => 3
  | _, .template => 9
  | .backwardBackward, .swap => 18
  | _, .swap => 14

end RelayMethod

abbrev Methods := Vector (Vector (Option RelayMethod) templateSize) templateSize

/-- The methods of all ordered pairs of a named device, none on the diagonal. -/
structure MethodMatrix where
  name : String
  methods : Methods
  deriving DecidableEq, Repr

namespace MethodMatrix

open RelayMethod

def qx2 : MethodMatrix where
  name := "qx2"
  methods :=
    #v[#v[none, some direct, some direct, some forwardBackward, some forwardBackward],
      #v[some flipped, none, some direct, some forwardBackward, some forwardBackward],
      #v[some flipped, some flipped, none, some flipped, some flipped],
      #v[some forwardBackward, some forwardBackward, some direct, none, some direct],
      #v[some forwardBackward, some forwardBackward, some direct, some flipped, none]]

def qx4 : MethodMatrix where
  name := "qx4"
  methods :=
    #v[#v[none, some flipped, some flipped, some backwardBackward, some backwardForward],
      #v[some direct, none, some flipped, some backwardBackward, some backwardForward],
      #v[some direct, some direct, none, some flipped, some direct],
      #v[some forwardForward, some forwardForward, some direct, none, some direct],
      #v[some backwardForward, some backwardForward, some flipped, some flipped, none]]

def ofName (name : String) : Except RoutingError MethodMatrix :=
  match Text.lowerCase name with
  | "qx2" => .ok qx2
  | "qx4" => .ok qx4
  | _ => .error (.unknownArchitecture name)

/-- The method of an ordered pair of a graph, if it has one. Among edges at the hub, one away from
the control and one towards the target are preferred. -/
def classify? (g : Graph) (c t : Qubit) : Option RelayMethod :=
  if g.adjacent c t then some direct
  else if g.adjacent t c then some flipped
  else if g.adjacent c hub then
    if g.adjacent hub t then some forwardForward
    else if g.adjacent t hub then some forwardBackward
    else none
  else if g.adjacent hub c then
    if g.adjacent hub t then some backwardForward
    else if g.adjacent t hub then some backwardBackward
    else none
  else none

def ofGraph (name : String) (g : Graph) : Except RoutingError MethodMatrix :=
  if g.size ≠ templateSize then .error (.graph (.notTemplateSize templateSize g.size))
  else
    match (Graph.orderedPairs templateSize).find? fun (c, t) => (classify? g c t).isNone with
    | some (c, t) => .error (.unreachable c t)
    | none =>
      .ok ⟨name, Vector.ofFn fun c => Vector.ofFn fun t =>
        if c = t then none else classify? g c t⟩

def method? (m : MethodMatrix) (control target : Qubit) : Option RelayMethod := do
  let row ← m.methods[control]?
  (← row[target]?)

def native (m : MethodMatrix) (control target : Qubit) : Bool :=
  m.method? control target = some direct

def method (m : MethodMatrix) (control target : Qubit) : Except RoutingError RelayMethod :=
  match m.method? control target with
  | some r => .ok r
  | none => .error (.unreachable control target)

end MethodMatrix

end QubitRouting
