import Mathlib.Algebra.Group.Units.Defs
import QubitRouting.Proofs.Template.Method

/-!
The controlled square root of NOT from quarter turns about the z axis. Two CNOTs with quarter turns
around them add a phase exactly where both lines have the value one, whichever of them is the
control, and the Hadamards on the target make a root of NOT of it.
-/

namespace QubitRouting

variable {R : Type} [CommRing R]

/-- Moreover, the quarter turns about the z axis are by the unit `w` and its inverse, the square
root of NOT is the half turn between Hadamards, and its adjoint undoes it. -/
structure Rooted (s : R) (w : Rˣ) (matrix : GateKind → Matrix2 R) : Prop extends
    Standard s matrix where
  quarter : matrix (.pauli .z 4 false) = .diagonal 1 w
  quarter_adjoint : matrix (.pauli .z 4 true) = .diagonal 1 ↑w⁻¹
  root : matrix (.v false) =
    ((matrix .hadamard).mul (.diagonal 1 (w * w))).mul (matrix .hadamard)
  root_adjoint : (matrix (.v false)).mul (matrix (.v true)) = .diagonal 1 1

def eighthRoot : (ZMod 17)ˣ := ⟨(2 : Nat), (9 : Nat), by decide, by decide⟩

theorem rooted_modular : Rooted 3 eighthRoot GateKind.modular where
  toStandard := standard_modular
  quarter := rfl
  quarter_adjoint := rfl
  root := by decide
  root_adjoint := by decide

def phase (w : Rˣ) (adjoint : Bool) : R := if adjoint then ↑w⁻¹ else w

theorem phase_mul_phase (w : Rˣ) (adjoint : Bool) : phase w adjoint * phase w (!adjoint) = 1 := by
  cases adjoint <;> simp [phase]

namespace Rooted

variable {s : R} {w : Rˣ} {matrix : GateKind → Matrix2 R}

theorem act_quarter (hM : Rooted s w matrix) (adjoint : Bool) (q : Qubit) (ψ : Wave R) (k : Nat) :
    Wave.act matrix (.quarter adjoint q) ψ k =
      (if k.testBit q then phase w adjoint else 1) * ψ k := by
  have hmatrix : matrix (.pauli .z 4 adjoint) = .diagonal 1 (phase w adjoint) := by
    cases adjoint with
    | false => exact hM.quarter
    | true => exact hM.quarter_adjoint
  simp only [Wave.act, Wave.actOn, Gate.quarter, Gate.pauli, List.foldl_cons, List.foldl_nil,
    hmatrix, Matrix2.diagonal, Fires, List.not_mem_nil, false_implies, implies_true, if_true]
  split_ifs <;> ring

/-- The column that a matrix of sums and differences takes to a unit vector. -/
private theorem column_of_root {u u' a c : R} (half : 2 * s * s = 1) (hu : u * u' = 1)
    (hone : s * s * (1 + u) * a + s * s * (1 - u) * c = 1)
    (hzero : s * s * (1 - u) * a + s * s * (1 + u) * c = 0) :
    a = s * s * (1 + u') ∧ c = s * s * (1 - u') := by
  have hsum : a + c = 1 := by linear_combination hone + hzero - (a + c) * half
  have hscaled : u * (a - c) = 1 := by linear_combination hone - hzero - u * (a - c) * half
  have hdiff : a - c = u' := by linear_combination u' * hscaled - (a - c) * hu
  constructor
  · linear_combination s * s * (hsum + hdiff) - a * half
  · linear_combination s * s * (hsum - hdiff) - c * half

theorem matrix_root (hM : Rooted s w matrix) (adjoint : Bool) :
    let half := phase w adjoint * phase w adjoint
    matrix (.v adjoint) =
      ⟨s * s * (1 + half), s * s * (1 - half), s * s * (1 - half), s * s * (1 + half)⟩ := by
  have hroot := hM.root
  rw [hM.hadamard] at hroot
  simp only [Matrix2.mul, Matrix2.diagonal] at hroot
  cases adjoint with
  | false =>
    rw [hroot]
    simp only [phase, Matrix2.mk.injEq]
    refine ⟨?_, ?_, ?_, ?_⟩ <;> simp <;> ring
  | true =>
    have hinverse := hM.root_adjoint
    rw [hroot] at hinverse
    have hunit : (w : R) * w * (↑w⁻¹ * ↑w⁻¹) = 1 := by
      rw [mul_mul_mul_comm, w.mul_inv, mul_one]
    cases hv : matrix (.v true) with
    | mk a b c d =>
      rw [hv] at hinverse
      simp only [Matrix2.mul, Matrix2.diagonal, Matrix2.mk.injEq] at hinverse
      obtain ⟨h00, h01, h10, h11⟩ := hinverse
      obtain ⟨ha, hc⟩ := column_of_root (a := a) (c := c) hM.half hunit
        (by linear_combination h00) (by linear_combination h10)
      obtain ⟨hd, hb⟩ := column_of_root (a := d) (c := b) hM.half hunit
        (by linear_combination h11) (by linear_combination h01)
      rw [ha, hb, hc, hd]
      rfl

/-- Two CNOTs with quarter turns around them turn by a half where both lines have the value one. -/
theorem run_phases (hM : Rooted s w matrix) (adjoint : Bool) {x y : Qubit} (hxy : x ≠ y)
    {cnots : List Gate} (hc : Wave.run matrix cnots = Wave.run matrix [.cnot x y]) (ψ : Wave R)
    (k : Nat) :
    Wave.run matrix ([.quarter adjoint x, .quarter adjoint y] ++ cnots ++
      [.quarter (!adjoint) y] ++ cnots) ψ k =
      (if k.testBit x && k.testBit y then phase w adjoint * phase w adjoint else 1) * ψ k := by
  have cnot : Permutes matrix cnots (cnotIndex x y) := (hM.permutes_cnot x y).of_run_eq hc
  have back : cnotIndex x y (cnotIndex x y k) = k := by
    refine Nat.eq_of_testBit_eq fun q => ?_
    simp only [testBit_cnotIndex]
    grind
  have hy : (cnotIndex x y k).testBit y = (k.testBit y ^^ k.testBit x) := by
    simp [testBit_cnotIndex]
  have undone := phase_mul_phase w adjoint
  simp only [Wave.run_append, Wave.run_cons, Wave.run_nil, cnot _, Function.comp_apply,
    hM.act_quarter, back, hy]
  cases k.testBit x <;> cases k.testBit y
  · simp
  · simp only [Bool.xor_false, Bool.and_true, Bool.false_eq_true, if_true, if_false]
    linear_combination (ψ k) * undone
  · simp only [Bool.xor_true, Bool.not_false, Bool.and_false, Bool.false_eq_true, if_true, if_false]
    linear_combination (ψ k) * undone
  · simp only [Bool.xor_self, Bool.and_self, Bool.false_eq_true, if_true, if_false]
    ring

theorem run_root (hM : Rooted s w matrix) (adjoint : Bool) {c t x y : Qubit} (hct : c ≠ t)
    (hxy : (x = c ∧ y = t) ∨ (x = t ∧ y = c)) {cnots : List Gate}
    (hc : Wave.run matrix cnots = Wave.run matrix [.cnot x y]) :
    Wave.run matrix ([.hadamard t, .quarter adjoint x, .quarter adjoint y] ++ cnots ++
      [.quarter (!adjoint) y] ++ cnots ++ [.hadamard t]) =
      Wave.run matrix [.controlledV c t adjoint] := by
  have hne : x ≠ y := by
    rcases hxy with ⟨rfl, rfl⟩ | ⟨rfl, rfl⟩
    exacts [hct, hct.symm]
  have hboth : ∀ k : Nat, (k.testBit x && k.testBit y) = (k.testBit c && k.testBit t) := by
    intro k
    rcases hxy with ⟨rfl, rfl⟩ | ⟨rfl, rfl⟩
    exacts [rfl, Bool.and_comm _ _]
  have split : [Gate.hadamard t, .quarter adjoint x, .quarter adjoint y] ++ cnots ++
      [.quarter (!adjoint) y] ++ cnots ++ [.hadamard t] =
      [.hadamard t] ++ ([.quarter adjoint x, .quarter adjoint y] ++ cnots ++
        [.quarter (!adjoint) y] ++ cnots) ++ [.hadamard t] := by simp
  funext ψ k
  have hflip := testBit_flipLine_of_ne hct.symm k
  rw [split, Wave.run_append, Wave.run_append]
  simp only [Wave.run_cons, Wave.run_nil, hM.act_hadamard, hM.run_phases adjoint hne hc, hboth,
    flipLine_flipLine, testBit_flipLine_self, hflip]
  have hroot := hM.matrix_root adjoint
  simp only [Wave.act, Wave.actOn, Gate.controlledV, List.foldl_cons, List.foldl_nil, hroot, Fires,
    List.mem_singleton, forall_eq]
  cases hcv : k.testBit c <;> cases htv : k.testBit t <;> simp
  · linear_combination (ψ k) * hM.half
  · linear_combination (ψ k) * hM.half
  · ring
  · ring

end Rooted

theorem Gate.Fits.quarter {n : Nat} (adjoint : Bool) {q : Qubit} (h : q < n) :
    (Gate.quarter adjoint q).Fits n := by
  constructor <;> simp [Gate.quarter, Gate.pauli, Gate.lines, h]

namespace MethodMatrix

variable {s : R} {w : Rˣ} {matrix : GateKind → Matrix2 R} {m : MethodMatrix} {c t : Qubit}

theorem aroundCnots_replaces (hM : Rooted s w matrix) (hm : m.Sound) (variant : Variant)
    (adjoint : Bool) (hct : c ≠ t) (hc : c < templateSize) (ht : t < templateSize) {x y : Qubit}
    (hxy : (x = c ∧ y = t) ∨ (x = t ∧ y = c)) :
    ∃ cnots, m.cnotGates variant x y = .ok cnots ∧
      Circuit.Replaces matrix templateSize (.controlledV c t adjoint)
        ([.hadamard t, .quarter adjoint x, .quarter adjoint y] ++ cnots ++
          [.quarter (!adjoint) y] ++ cnots ++ [.hadamard t]) := by
  obtain ⟨hx, hy, hne⟩ : x < templateSize ∧ y < templateSize ∧ x ≠ y := by
    rcases hxy with ⟨rfl, rfl⟩ | ⟨rfl, rfl⟩
    · exact ⟨hc, ht, hct⟩
    · exact ⟨ht, hc, hct.symm⟩
  obtain ⟨cnots, hcnots, hfit, hrun⟩ := cnotGates_replaces hM.toStandard hm variant hne hx hy
  refine ⟨cnots, hcnots, ?_, hM.run_root adjoint hct hxy hrun⟩
  have turn := Gate.Fits.hadamard ht
  have atx := Gate.Fits.quarter adjoint hx
  have aty := Gate.Fits.quarter adjoint hy
  have undo := Gate.Fits.quarter (!adjoint) hy
  simp only [List.forall_mem_append, List.forall_mem_cons, List.not_mem_nil, false_implies,
    implies_true, and_true]
  exact ⟨⟨⟨⟨⟨turn, atx, aty⟩, hfit⟩, undo⟩, hfit⟩, turn⟩

/-- The controlled square root of NOT of every pair is performed, in both styles. -/
theorem rootGates_replaces (hM : Rooted s w matrix) (hm : m.Sound) (variant : Variant)
    (adjoint : Bool) (hct : c ≠ t) (hc : c < templateSize) (ht : t < templateSize) :
    ∃ gates, m.rootGates variant adjoint c t = .ok gates ∧
      Circuit.Replaces matrix templateSize (.controlledV c t adjoint) gates := by
  obtain ⟨forth, -, hforth⟩ := hm.exists_method hc ht hct
  obtain ⟨back, -, hback⟩ := hm.exists_method ht hc hct.symm
  rw [rootGates, hforth, ok_bind, hback, ok_bind]
  by_cases hle : forth.cost variant ≤ back.cost variant
  · obtain ⟨cnots, hcnots, hreplaces⟩ :=
      aroundCnots_replaces hM hm variant adjoint hct hc ht (Or.inl ⟨rfl, rfl⟩)
    refine ⟨_, ?_, hreplaces⟩
    simp only [hle, if_true, hcnots, ok_bind]
    rfl
  · obtain ⟨cnots, hcnots, hreplaces⟩ :=
      aroundCnots_replaces hM hm variant adjoint hct hc ht (Or.inr ⟨rfl, rfl⟩)
    refine ⟨_, ?_, hreplaces⟩
    simp only [hle, if_false, hcnots, ok_bind]
    rfl

end MethodMatrix

end QubitRouting
