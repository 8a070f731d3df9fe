import QubitRouting.Circuit.Cancellation

/-!
Editing a circuit. An edit that replaces the circuit takes effect as a whole or not at all; only a
list of gates is taken in as far as it fits.
-/

namespace QubitRouting

inductive Builder where
  | not (target : Qubit)
  | cnot (control target : Qubit)
  | toffoli (controls : List Control) (target : Qubit)
  | hadamard (target : Qubit)
  | pauli (axis : Axis) (root : Nat) (adjoint : Bool) (target : Qubit)
  | quarter (adjoint : Bool) (target : Qubit)
  | controlledV (control target : Qubit) (adjoint : Bool)
  deriving DecidableEq, Repr, Inhabited

def Builder.gate : Builder → Gate
  | not target => .not target
  | cnot control target => .cnot control target
  | toffoli controls target => .toffoli controls target
  | hadamard target => .hadamard target
  | pauli axis root adjoint target => .pauli axis root adjoint target
  | quarter adjoint target => .quarter adjoint target
  | controlledV control target adjoint => .controlledV control target adjoint

inductive Edit where
  | addLine
  | apply (g : Gate)
  | build (b : Builder)
  | extend (gates : List Gate)
  | rename (name : String)
  | mapLines (lines : Nat) (f : Qubit → Qubit)
  /-- The image of a line may depend on how many were asked for before it. -/
  | mapLinesInTurn (lines : Nat) (f : Nat → Qubit → Qubit)
  | emptyLike
  | removeDuplicates
  /-- Every gate is inverted; the last one then comes first, or the order stays. -/
  | invert (backward : Bool)

inductive EditFault where
  | refused (error : CircuitError)
  | tooManyLines
  deriving DecidableEq, Repr, Inhabited

namespace Circuit

def replaced (c : Circuit) : Except CircuitError Circuit → Circuit × Option EditFault
  | .ok next => (next, none)
  | .error e => (c, some (.refused e))

def inverted (c : Circuit) (backward : Bool) : Circuit :=
  if backward then c.inverse else { c with gates := c.gates.map Gate.inverse }

def edit (c : Circuit) : Edit → Circuit × Option EditFault
  | .addLine =>
    match c.addLine? with
    | some next => (next, none)
    | none => (c, some .tooManyLines)
  | .apply g => c.replaced (c.apply g)
  | .build b => c.replaced (c.apply b.gate)
  | .extend gates =>
    let (next, e) := c.extend gates
    (next, e.map .refused)
  | .rename name => ({ c with name := name }, none)
  | .mapLines lines f => c.replaced (c.mapLines lines f)
  | .mapLinesInTurn lines f => c.replaced (c.mapLinesInTurn lines f)
  | .emptyLike => (c.emptyLike, none)
  | .removeDuplicates => c.replaced c.removeDuplicates
  | .invert backward => c.replaced (c.inverted backward).validated

def edits (c : Circuit) (steps : List Edit) : Circuit := steps.foldl (fun c e => (c.edit e).1) c

end Circuit

end QubitRouting
