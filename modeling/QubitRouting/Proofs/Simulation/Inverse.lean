import QubitRouting.Proofs.Cancellation.Meaning
import QubitRouting.Simulation.Matrix

/-!
Inverses under exact matrices. A root of a Pauli operator is undone by the root with the conjugate
phase, and the phase of degree one is its own conjugate, so every kind is undone by its inverse. A
circuit is undone by the inverses of its gates in reverse order.
-/

namespace QubitRouting

/-- The numbers of the matrices in a commutative ring: the phases are units, and the one of degree
one is minus one. -/
structure ExactScalars (R : Type) [CommRing R] where
  imaginary : R
  half : R
  rootHalf : R
  phase : Nat → Rˣ
  imaginary_mul_self : imaginary * imaginary = -1
  two_mul_half : 2 * half = 1
  two_mul_rootHalf : 2 * rootHalf * rootHalf = 1
  phase_one : phase 1 = -1

variable {R : Type} [CommRing R]

namespace ExactScalars

def scalars (x : ExactScalars R) : Scalars R where
  imaginary := x.imaginary
  rootHalf := x.rootHalf
  halve a := x.half * a
  phase degree adjoint := if adjoint then ↑(x.phase degree)⁻¹ else x.phase degree

def matrix (x : ExactScalars R) : GateKind → Matrix2 R := GateKind.matrixOver x.scalars

variable (x : ExactScalars R)

theorem phase_mul_phase (degree : Nat) (adjoint : Bool) :
    x.scalars.phase degree adjoint * x.scalars.phase degree (!adjoint) = 1 := by
  cases adjoint <;> simp [scalars]

theorem phase_one_eq (adjoint : Bool) : x.scalars.phase 1 adjoint = -1 := by
  cases adjoint <;> simp [scalars, x.phase_one]

theorem axis_mul_self (axis : Axis) :
    (axis.matrix x.scalars).mul (axis.matrix x.scalars) = .diagonal 1 1 := by
  have hi := x.imaginary_mul_self
  cases axis <;> simp [Axis.matrix, Matrix2.mul, Matrix2.diagonal, scalars, hi]

/-- The two projections of the operator are scaled by one and by the phase. -/
theorem root_mul_root (axis : Axis) (degree : Nat) (adjoint : Bool) :
    (axis.root x.scalars degree adjoint).mul (axis.root x.scalars degree (!adjoint)) =
      .diagonal 1 1 := by
  have hphase := x.phase_mul_phase (max degree 1) adjoint
  have hhalf := x.two_mul_half
  have hhalve : ∀ a, x.scalars.halve a = x.half * a := fun _ => rfl
  obtain ⟨h00, h01, h10, h11⟩ := Matrix2.mk.inj (x.axis_mul_self axis)
  simp only [Axis.root, Matrix2.mul, Matrix2.diagonal, Matrix2.mk.injEq, hhalve]
  generalize axis.matrix x.scalars = m at h00 h01 h10 h11 ⊢
  generalize x.scalars.phase (max degree 1) adjoint = u at hphase ⊢
  generalize x.scalars.phase (max degree 1) (!adjoint) = v at hphase ⊢
  generalize x.half = h at hhalf ⊢
  refine ⟨?_, ?_, ?_, ?_⟩
  · linear_combination h * h * (1 - u) * (1 - v) * h00 + 2 * h * h * (1 - m.a00) * hphase +
      (2 * h + 1) * hhalf
  · linear_combination h * h * (1 - u) * (1 - v) * h01 - 2 * h * h * m.a01 * hphase
  · linear_combination h * h * (1 - u) * (1 - v) * h10 - 2 * h * h * m.a10 * hphase
  · linear_combination h * h * (1 - u) * (1 - v) * h11 + 2 * h * h * (1 - m.a11) * hphase +
      (2 * h + 1) * hhalf

theorem standard : Standard x.rootHalf x.matrix where
  half := x.two_mul_rootHalf
  toffoli := rfl
  hadamard := by simp [matrix, GateKind.matrixOver, scalars]

theorem undone : Undone x.matrix where
  toffoli := x.axis_mul_self .x
  hadamard := by
    have hroot := x.two_mul_rootHalf
    rw [x.standard.hadamard]
    simp only [Matrix2.mul, Matrix2.diagonal, Matrix2.mk.injEq]
    refine ⟨?_, ?_, ?_, ?_⟩
    · linear_combination hroot
    · ring
    · ring
    · linear_combination hroot
  pauli axis adjoint := by
    have same : axis.root x.scalars 1 adjoint = axis.root x.scalars 1 (!adjoint) := by
      simp [Axis.root, phase_one_eq]
    have hmul := x.root_mul_root axis 1 adjoint
    rwa [← same] at hmul
  root adjoint := x.root_mul_root .x 2 adjoint

theorem matrix_mul_inverse (kind : GateKind) :
    (x.matrix kind).mul (x.matrix kind.inverse) = .diagonal 1 1 := by
  cases hk : kind.isUndone with
  | true => exact x.undone.mul_inverse hk
  | false =>
    cases kind with
    | pauli axis root adjoint =>
      have hroot : root ≠ 1 := of_decide_eq_false hk
      have hinverse : (GateKind.pauli axis root adjoint).inverse = .pauli axis root (!adjoint) := by
        simp [GateKind.inverse, hroot]
      rw [hinverse]
      exact x.root_mul_root axis root adjoint
    | _ => cases hk

theorem act_inverse {g : Gate} (hg : g.lines.Nodup) (ψ : Wave R) :
    Wave.act x.matrix g.inverse (Wave.act x.matrix g ψ) = ψ := by
  have hmul := x.matrix_mul_inverse g.kind.inverse
  rw [GateKind.inverse_inverse] at hmul
  exact Wave.act_undo (h := g.inverse) hg rfl rfl hmul ψ

theorem run_inverse {gates : List Gate} (h : ∀ g ∈ gates, g.lines.Nodup) (ψ : Wave R) :
    Wave.run x.matrix (gates ++ gates.reverse.map Gate.inverse) ψ = ψ := by
  induction gates generalizing ψ with
  | nil => rfl
  | cons g gates ih =>
    obtain ⟨hg, hrest⟩ := List.forall_mem_cons.1 h
    have hshape : g :: gates ++ (g :: gates).reverse.map Gate.inverse =
        [g] ++ (gates ++ gates.reverse.map Gate.inverse) ++ [g.inverse] := by simp
    rw [hshape, Wave.run_append, Wave.run_append, ih hrest]
    exact x.act_inverse hg ψ

end ExactScalars

theorem Gate.Fits.inverse {g : Gate} {lines : Nat} (hg : g.Fits lines) : g.inverse.Fits lines :=
  ⟨hg.targets_ne, hg.distinct, hg.inside⟩

namespace Circuit

variable {c : Circuit}

theorem Valid.inverse (hv : c.Valid) : c.inverse.Valid := by
  intro g hg
  obtain ⟨h, hh, rfl⟩ := List.mem_map.1 hg
  exact (hv h (List.mem_reverse.1 hh)).inverse

@[simp] theorem inverse_inverse (c : Circuit) : c.inverse.inverse = c := by
  simp [inverse, List.map_reverse, Function.comp_def]

/-- A circuit and its inverse undo each other, in either order. -/
theorem inverse_undoes (x : ExactScalars R) (hv : c.Valid) :
    ActAlike x.matrix c.lines (c.gates ++ c.inverse.gates) [] ∧
      ActAlike x.matrix c.lines (c.inverse.gates ++ c.gates) [] := by
  have undone : ∀ d : Circuit, d.Valid →
      ActAlike x.matrix d.lines (d.gates ++ d.inverse.gates) [] := by
    intro d hd
    refine .of_run_eq (List.forall_mem_append.2 ⟨hd, hd.inverse⟩) (fun g hg => by cases hg) ?_
    funext ψ
    exact x.run_inverse (fun g hg => (hd g hg).distinct) ψ
  have back := undone c.inverse hv.inverse
  rw [inverse_inverse] at back
  exact ⟨undone c hv, back⟩

def generator : (ZMod 17)ˣ := ⟨(3 : Nat), (6 : Nat), by decide, by decide⟩

theorem two_mul_modular_half : 2 * ((9 : Nat) : ZMod 17) = 1 := by decide

theorem two_mul_modular_rootHalf : 2 * ((14 : Nat) : ZMod 17) * (14 : Nat) = 1 := by decide

def modularScalars : ExactScalars (ZMod 17) where
  imaginary := (13 : Nat)
  half := (9 : Nat)
  rootHalf := (14 : Nat)
  phase degree := generator ^ (8 / degree)
  imaginary_mul_self := by decide
  two_mul_half := two_mul_modular_half
  two_mul_rootHalf := two_mul_modular_rootHalf
  phase_one := by decide

def turns : Circuit where
  name := "turns"
  lines := 4
  gates := [⟨.pauli .y 4 false, [⟨0, false⟩, ⟨3, true⟩], [1, 2]⟩, .controlledV 0 1 true,
    .hadamard 3, .pauli .x 0 false 2, ⟨.pauli .z 1 true, [⟨1, true⟩], [0, 3]⟩]

theorem inverse_undoes_turns : turns.Valid ∧
    ActAlike modularScalars.matrix 4 (turns.gates ++ turns.inverse.gates) [] := by
  have valid : turns.Valid := by decide
  exact ⟨valid, (inverse_undoes modularScalars valid).1⟩

end Circuit

end QubitRouting
