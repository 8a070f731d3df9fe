import QubitRouting.Proofs.Cancellation.NormalForm
import QubitRouting.Proofs.Simulation.Cnot
import QubitRouting.Proofs.Simulation.Register

/-!
Deleting gates that cancel does not change what a circuit does: gates that share no line commute, so
the first gate of a pair can be carried to the second, which undoes it.
-/

namespace QubitRouting

variable {R : Type} [CommRing R]

/-- The kinds that a sweep takes away are undone: NOT, Hadamard and the Pauli operators by
themselves, a square root of NOT by its adjoint. The proper roots of Pauli operators are left open.
-/
structure Undone (matrix : GateKind → Matrix2 R) : Prop where
  toffoli : (matrix .toffoli).mul (matrix .toffoli) = .diagonal 1 1
  hadamard : (matrix .hadamard).mul (matrix .hadamard) = .diagonal 1 1
  pauli : ∀ axis adjoint,
    (matrix (.pauli axis 1 adjoint)).mul (matrix (.pauli axis 1 adjoint)) = .diagonal 1 1
  root : ∀ adjoint, (matrix (.v adjoint)).mul (matrix (.v (!adjoint))) = .diagonal 1 1

namespace Undone

variable {matrix : GateKind → Matrix2 R} {g h : Gate} {n : Nat} {gs hs : List Gate}

theorem mul_inverse (hM : Undone matrix) {kind : GateKind} (hk : kind.isUndone = true) :
    (matrix kind).mul (matrix kind.inverse) = .diagonal 1 1 := by
  cases kind with
  | toffoli => exact hM.toffoli
  | hadamard => exact hM.hadamard
  | v adjoint => exact hM.root adjoint
  | pauli axis root adjoint =>
    obtain rfl : root = 1 := of_decide_eq_true hk
    exact hM.pauli axis adjoint

theorem act_cancels (hM : Undone matrix) (hg : g.Fits n) (hc : g.cancels h = true) (ψ : Wave R) :
    Wave.act matrix h (Wave.act matrix g ψ) = ψ := by
  obtain ⟨rfl, hk⟩ := Gate.cancels_iff.1 hc
  refine Wave.act_undo hg.distinct ?_ ?_ (hM.mul_inverse hk) ψ
  · rfl
  · rfl

end Undone

namespace Wave

variable (matrix : GateKind → Matrix2 R) {g h : Gate} {n : Nat} {gs hs : List Gate}

theorem act_comm_of_apart (hgh : g.touches h = false) (ψ : Wave R) :
    act matrix g (act matrix h ψ) = act matrix h (act matrix g ψ) := by
  have hapart := Gate.touches_eq_false_iff.1 hgh
  apply act_comm matrix
  · intro q hq
    exact hapart q (List.mem_append_right _ hq)
  · intro q hq hqg
    exact hapart q hqg (List.mem_append_right _ hq)

theorem run_exchange (hex : Exchange gs hs) : run matrix gs = run matrix hs := by
  obtain ⟨before, after, hgh⟩ := hex
  funext ψ
  rw [run_append, run_append, run_cons, run_cons, run_cons, run_cons, act_comm_of_apart matrix hgh]

theorem run_shuffle (hsh : Shuffle gs hs) : run matrix gs = run matrix hs := by
  induction hsh with
  | refl => rfl
  | tail _ step ih => exact ih.trans (run_exchange matrix step)

variable {matrix}

theorem run_deletion (hM : Undone matrix) (hgs : ∀ g ∈ gs, g.Fits n) (hdel : Deletion gs hs) :
    run matrix gs = run matrix hs := by
  obtain ⟨before, between, after, hc, hbetween⟩ := hdel
  rename_i g h
  have hg : g.Fits n := hgs g (by simp)
  have carried := run_shuffle matrix (Shuffle.pass (h :: after) fun x hx => (hbetween x hx).1)
  funext ψ
  calc run matrix (before ++ g :: between ++ h :: after) ψ
      = run matrix (g :: between ++ h :: after) (run matrix before ψ) := by
        rw [List.append_assoc, run_append]
    _ = run matrix (between ++ g :: h :: after) (run matrix before ψ) := by
        rw [carried]
    _ = run matrix after (run matrix between (run matrix before ψ)) := by
        rw [run_append, run_cons, run_cons, hM.act_cancels hg hc]
    _ = run matrix (before ++ between ++ after) ψ := by
        rw [run_append, run_append]

theorem run_deletions (hM : Undone matrix) (hgs : ∀ g ∈ gs, g.Fits n)
    (hdel : Relation.ReflTransGen Deletion gs hs) : run matrix gs = run matrix hs := by
  induction hdel with
  | refl => rfl
  | tail before step ih =>
    have hfit := fun g hg => hgs g ((sublist_of_deletions before).subset hg)
    exact ih.trans (run_deletion hM hfit step)

end Wave

namespace Circuit

variable {matrix : GateKind → Matrix2 R} {c : Circuit}

/-- The circuit without the pairs that cancel has the other gates of the circuit, in their order,
and acts like it. -/
theorem removeDuplicates_meaning (hM : Undone matrix) (hv : c.Valid) :
    ∃ out, c.removeDuplicates = .ok out ∧ out.name = c.name ∧ out.lines = c.lines ∧
      out.gates.Sublist c.gates ∧ (∃ k, c.gates.length = out.gates.length + 2 * k) ∧
      ActAlike matrix c.lines out.gates c.gates := by
  have hdel := deletions_keptGates c.gates
  have hsub := sublist_of_deletions hdel
  have hrun := (Wave.run_deletions hM hv hdel).symm
  exact ⟨_, removeDuplicates_eq hv, rfl, rfl, hsub, length_of_deletions hdel,
    .of_run_eq (hv.sublist hsub) hv hrun⟩

/-- The field of 17 elements, in which 4 is a root of minus one, with the Pauli operators. -/
def modularPauli : GateKind → Matrix2 (ZMod 17)
  | .pauli .x 1 _ => ⟨0, 1, 1, 0⟩
  | .pauli .y 1 _ => ⟨0, -4, 4, 0⟩
  | .pauli .z 1 _ => ⟨1, 0, 0, -1⟩
  | kind => kind.modular

theorem undone_modularPauli : Undone modularPauli where
  toffoli := by decide
  hadamard := by decide
  pauli axis adjoint := by
    cases axis <;> cases adjoint <;> decide
  root := by decide

def controlledY : Gate := ⟨.pauli .y 1 false, [⟨0, false⟩, ⟨1, true⟩], [2, 3]⟩

def separated : Circuit where
  name := "separated"
  lines := 5
  gates := [controlledY, .quarter false 4, controlledY, .hadamard 0]

/-- Two operators on two targets cancel over a gate on another line. -/
theorem removeDuplicates_of_separated :
    ∃ out, separated.removeDuplicates = .ok out ∧ out.gates = [.quarter false 4, .hadamard 0] ∧
      ActAlike modularPauli 5 out.gates separated.gates := by
  obtain ⟨out, hout, -, -, -, -, alike⟩ :=
    removeDuplicates_meaning undone_modularPauli (c := separated) (by decide)
  have heq : separated.removeDuplicates =
      .ok { separated with gates := [.quarter false 4, .hadamard 0] } := by decide +kernel
  rw [heq] at hout
  cases hout
  exact ⟨_, heq, rfl, alike⟩

end Circuit

end QubitRouting
