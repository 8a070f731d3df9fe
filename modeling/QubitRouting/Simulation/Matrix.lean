import QubitRouting.Simulation.Register

/-!
The matrices of the gate kinds, over any numbers that have a root of minus one, a root of one half
and the phases of the roots.
-/

namespace QubitRouting

/-- The numbers of the matrices beside zero and one. -/
structure Scalars (α : Type) where
  /-- A root of minus one. -/
  imaginary : α
  /-- A root of one half. -/
  rootHalf : α
  halve : α → α
  /-- The half turn divided by a degree, or back for the adjoint. -/
  phase : Nat → Bool → α

variable {α : Type} [Zero α] [One α] [Add α] [Sub α] [Mul α] (x : Scalars α)

def Axis.matrix : Axis → Matrix2 α
  | .x => ⟨0, 1, 1, 0⟩
  | .y => ⟨0, 0 - x.imaginary, x.imaginary, 0⟩
  | .z => ⟨1, 0, 0, 0 - 1⟩

/-- The root of a Pauli operator `P` of degree `n`: `(I + P)/2 + e^(iπ/n) (I - P)/2`, with the
conjugate phase for the adjoint. Degree zero counts as degree one. -/
def Axis.root (axis : Axis) (degree : Nat) (adjoint : Bool) : Matrix2 α :=
  let phase := x.phase (max degree 1) adjoint
  let entry (e p : α) := x.halve (e + p) + x.halve (phase * (e - p))
  let m := axis.matrix x
  ⟨entry 1 m.a00, entry 0 m.a01, entry 0 m.a10, entry 1 m.a11⟩

def GateKind.matrixOver : GateKind → Matrix2 α
  | .toffoli => Axis.x.matrix x
  | .hadamard => ⟨x.rootHalf, x.rootHalf, x.rootHalf, 0 - x.rootHalf⟩
  | .pauli axis root adjoint => axis.root x root adjoint
  | .v adjoint => Axis.x.root x 2 adjoint

end QubitRouting
