import QubitRouting.Simulation.Matrix

/-!
Registers of complex floating point amplitudes, the matrices of the gate kinds, and the comparison
of two circuits up to a global phase.
-/

namespace QubitRouting

structure Complex where
  re : Float
  im : Float
  deriving Repr, Inhabited

namespace Complex

instance : Add Complex := ⟨fun a b => ⟨a.re + b.re, a.im + b.im⟩⟩
instance : Sub Complex := ⟨fun a b => ⟨a.re - b.re, a.im - b.im⟩⟩
instance : Mul Complex := ⟨fun a b => ⟨a.re * b.re - a.im * b.im, a.re * b.im + a.im * b.re⟩⟩

def zero : Complex := ⟨0, 0⟩
def one : Complex := ⟨1, 0⟩

instance : Zero Complex := ⟨zero⟩
instance : One Complex := ⟨one⟩

def conj (a : Complex) : Complex := ⟨a.re, -a.im⟩
def scale (a : Complex) (k : Float) : Complex := ⟨a.re * k, a.im * k⟩
def norm (a : Complex) : Float := Float.sqrt (a.re * a.re + a.im * a.im)

def polar (angle : Float) : Complex := ⟨angle.cos, angle.sin⟩

end Complex

def pi : Float := 3.141592653589793

def Complex.scalars : Scalars Complex where
  imaginary := ⟨0, 1⟩
  rootHalf := ⟨1 / Float.sqrt 2, 0⟩
  halve a := a.scale 0.5
  phase degree adjoint :=
    let sign : Float := if adjoint then -1 else 1
    .polar (sign * pi / degree.toFloat)

def GateKind.matrix : GateKind → Matrix2 Complex := GateKind.matrixOver Complex.scalars

def maxQubits : Nat := 24

def maxComparedLines : Nat := 12

namespace Register

/-- The basis state of this index, modulo the number of basis states. -/
def basis (qubits index : Nat) : Except CircuitError (Register Complex) :=
  if qubits > maxQubits then .error (.tooManyQubits qubits)
  else
    let states := lineIndex qubits
    .ok ((Array.replicate states Complex.zero).setIfInBounds (index % states) .one)

def inner (a b : Register Complex) : Complex :=
  (Array.zipWith (fun x y => x.conj * y) a b).foldl (· + ·) .zero

end Register

namespace Circuit

def tolerance : Float := 1e-9

inductive CompareError where
  | circuit (error : CircuitError)
  | lineOutside
  deriving DecidableEq, Repr

def overlap (a b : Circuit) (lines index : Nat) : Except CompareError Complex := do
  let start ← (Register.basis lines index).mapError .circuit
  let run (c : Circuit) := Register.run? GateKind.matrix start c.gates
  match run a, run b with
  | some x, some y => return x.inner y
  | _, _ => throw .lineOutside

/-- Whether every basis state from `index` on has an overlap of modulus one and of the phase of the
states before it. -/
def agreeFrom (a b : Circuit) (lines : Nat) (phase : Option Complex) :
    List Nat → Except CompareError Bool
  | [] => return true
  | index :: rest => do
    let z ← overlap a b lines index
    if (z.norm - 1).abs > tolerance then return false
    match phase with
    | none => agreeFrom a b lines (some z) rest
    | some p => if (p - z).norm > tolerance then return false else agreeFrom a b lines phase rest

/-- Whether two circuits take every basis state to the same state, up to one phase. The circuits
are compared on the larger of their line counts. -/
def equivalent (a b : Circuit) : Except CompareError Bool :=
  let lines := max a.lines b.lines
  if lines > maxComparedLines then .error (.circuit (.tooManyQubits lines))
  else agreeFrom a b lines none (List.range (lineIndex lines))

end Circuit

end QubitRouting
