import QubitRouting.Circuit.Gate

/-!
Moves: the steps of a routed CNOT. A relay move carries one end of the interaction to a neighbouring
qubit, or back; a terminal move performs the interaction.

The cost of a move is the number of gates that it adds to the one CNOT that was asked for.
-/

namespace QubitRouting

inductive Carried where
  | control
  | target
  deriving DecidableEq, Repr, Inhabited

/-- How a relay from `a` to `b` uses the device: along a native `a → b`, or against a native
`b → a`. -/
inductive Heading where
  | along
  | against
  deriving DecidableEq, Repr, Inhabited

structure Relay where
  carried : Carried
  heading : Heading
  undoing : Bool
  source : Qubit
  dest : Qubit
  deriving DecidableEq, Repr, Inhabited

namespace Relay

def inverse (r : Relay) : Relay := { r with undoing := !r.undoing }

@[simp] theorem inverse_inverse (r : Relay) : r.inverse.inverse = r := by simp [inverse]

def edge (r : Relay) : Qubit × Qubit :=
  match r.heading with
  | .along => (r.source, r.dest)
  | .against => (r.dest, r.source)

end Relay

inductive Move where
  | relay (r : Relay)
  /-- CNOT from `a` to `b` on a native edge. -/
  | nop (a b : Qubit)
  /-- CNOT from `a` to `b` over the reversed native edge. -/
  | flip (a b : Qubit)
  /-- CNOT from `a` to `c` through `b`. -/
  | cnot3 (a b c : Qubit)
  deriving DecidableEq, Repr, Inhabited

namespace Move

abbrev cab (a b : Qubit) : Move := .relay ⟨.control, .along, false, a, b⟩

abbrev cba (a b : Qubit) : Move := .relay ⟨.control, .against, false, a, b⟩

abbrev tab (a b : Qubit) : Move := .relay ⟨.target, .along, false, a, b⟩

abbrev tba (a b : Qubit) : Move := .relay ⟨.target, .against, false, a, b⟩

def relayCost : Nat := 6
def flipCost : Nat := 4
def cnot3Cost : Nat := 3

def cost : Move → Nat
  | .relay _ => relayCost
  | .nop .. => 0
  | .flip .. => flipCost
  | .cnot3 .. => cnot3Cost

def inverse : Move → Move
  | .relay r => .relay r.inverse
  | m => m

@[simp] theorem inverse_inverse (m : Move) : m.inverse.inverse = m := by
  cases m <;> simp [inverse]

def isTerminal : Move → Bool
  | .relay _ => false
  | _ => true

def qubits : Move → List Qubit
  | .relay r => [r.source, r.dest]
  | .nop a b => [a, b]
  | .flip a b => [a, b]
  | .cnot3 a b c => [a, b, c]

end Move

/-- A relay is named by the end that it carries, the edge that it needs, and `i` for undoing. -/
def Relay.name (r : Relay) : String :=
  (match r.carried with
    | .control => "c"
    | .target => "t") ++
  (match r.heading with
    | .along => "ab"
    | .against => "ba") ++
  (if r.undoing then "i" else "")

namespace Move

def name : Move → String
  | .relay r => r.name
  | .nop .. => "nop"
  | .flip .. => "flip"
  | .cnot3 .. => "cnot3"

inductive Shape where
  | relay (carried : Carried) (heading : Heading) (undoing : Bool)
  | nop
  | flip
  | cnot3
  deriving DecidableEq, Repr, Inhabited

def Shape.ofName? : String → Option Shape
  | "cab" => some (.relay .control .along false)
  | "cba" => some (.relay .control .against false)
  | "tab" => some (.relay .target .along false)
  | "tba" => some (.relay .target .against false)
  | "cabi" => some (.relay .control .along true)
  | "cbai" => some (.relay .control .against true)
  | "tabi" => some (.relay .target .along true)
  | "tbai" => some (.relay .target .against true)
  | "nop" => some .nop
  | "flip" => some .flip
  | "cnot3" => some .cnot3
  | _ => none

def Shape.arity : Shape → Nat
  | .cnot3 => 3
  | _ => 2

def Shape.withOperands? : Shape → List Qubit → Option Move
  | .relay carried heading undoing, [a, b] => some (.relay ⟨carried, heading, undoing, a, b⟩)
  | .nop, [a, b] => some (.nop a b)
  | .flip, [a, b] => some (.flip a b)
  | .cnot3, [a, b, c] => some (.cnot3 a b c)
  | _, _ => none

def ofParts? (name : String) (operands : List Qubit) : Option Move := do
  (← Shape.ofName? name).withOperands? operands

@[simp] theorem ofParts?_name_qubits (m : Move) : ofParts? m.name m.qubits = some m := by
  cases m with
  | relay r => obtain ⟨c, h, u, a, b⟩ := r; cases c <;> cases h <;> cases u <;> rfl
  | _ => rfl

def text (m : Move) : String := " ".intercalate (m.name :: m.qubits.map toString)

end Move

end QubitRouting
