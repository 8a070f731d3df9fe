import QubitRouting.Proofs.Relay.Emission
import QubitRouting.Template.Routing

/-!
The gates of the fixed templates perform the CNOT that they stand for: the four CNOTs through the
hub, once the Hadamards that were left out are put back, and the interaction of the hub between two
exchanges.
-/

namespace QubitRouting

variable {R : Type} [CommRing R] {s : R} {matrix : GateKind → Matrix2 R}

namespace Standard

variable {a b c : Qubit}

theorem run_through (hM : Standard s matrix) (hab : a ≠ b) (hac : a ≠ c) (hbc : b ≠ c)
    (ψ : Wave R) :
    Wave.act matrix (.cnot b c) (Wave.act matrix (.cnot a b) (Wave.act matrix (.cnot b c)
      (Wave.act matrix (.cnot a b) ψ))) = Wave.act matrix (.cnot a c) ψ :=
  congrFun (hM.nested_window hab hac hbc (rfl : Wave.run matrix [.cnot b c] = _)) ψ

theorem run_forward_backward (hM : Standard s matrix) (hab : a ≠ b) (hac : a ≠ c) (hbc : b ≠ c) :
    Wave.run matrix [.cnot a b, .hadamard b, .hadamard c, .cnot c b, .hadamard b, .cnot a b,
      .hadamard b, .cnot c b, .hadamard b, .hadamard c] = Wave.run matrix [.cnot a c] := by
  funext ψ
  have turned := hM.act_cnot_turned hbc.symm
  have twice := hM.hadamard_twice
  have cross := Wave.hadamard_comm matrix b c
  have pass := Wave.cnot_hadamard_comm matrix hac.symm hbc.symm
  simp only [Wave.run_cons, Wave.run_nil]
  rw [← hM.run_through hab hac hbc]
  -- Hadamards go outwards past all that lets them through, and cancel where two of them meet.
  simp only [turned, cross, pass, twice]

theorem run_backward_forward (hM : Standard s matrix) (hab : a ≠ b) (hac : a ≠ c) (hbc : b ≠ c) :
    Wave.run matrix [.hadamard a, .hadamard b, .cnot b a, .hadamard b, .cnot b c, .hadamard b,
      .cnot b a, .hadamard a, .hadamard b, .cnot b c] = Wave.run matrix [.cnot a c] := by
  funext ψ
  have turned := hM.act_cnot_turned hab.symm
  have twice := hM.hadamard_twice
  have cross := Wave.hadamard_comm matrix b a
  have pass := Wave.cnot_hadamard_comm matrix hab hac
  simp only [Wave.run_cons, Wave.run_nil]
  rw [← hM.run_through hab hac hbc]
  simp only [turned, cross, pass, twice]

theorem run_backward_backward (hM : Standard s matrix) (hab : a ≠ b) (hac : a ≠ c) (hbc : b ≠ c) :
    Wave.run matrix [.hadamard a, .hadamard b, .hadamard c, .cnot b a, .cnot c b, .cnot b a,
      .cnot c b, .hadamard a, .hadamard b, .hadamard c] = Wave.run matrix [.cnot a c] := by
  funext ψ
  have first := hM.act_cnot_turned hab.symm
  have second := hM.act_cnot_turned hbc.symm
  have twice := hM.hadamard_twice
  have crossba := Wave.hadamard_comm matrix b a
  have crossbc := Wave.hadamard_comm matrix b c
  have crossca := Wave.hadamard_comm matrix c a
  have passa := fun ψ => (Wave.cnot_hadamard_comm matrix hac hab ψ).symm
  have passc := fun ψ => (Wave.cnot_hadamard_comm matrix hbc.symm hac.symm ψ).symm
  simp only [Wave.run_cons, Wave.run_nil]
  rw [← hM.run_through hab hac hbc]
  simp only [first, second, crossba, crossbc, crossca, passa, passc, twice]

end Standard

def exchangeIndex (p q : Qubit) : Nat → Nat := cnotIndex p q ∘ cnotIndex q p ∘ cnotIndex p q

theorem testBit_exchangeIndex {p q : Qubit} (h : p ≠ q) (k : Nat) (x : Qubit) :
    (exchangeIndex p q k).testBit x =
      if x = p then k.testBit q else if x = q then k.testBit p else k.testBit x := by
  simp only [exchangeIndex, Function.comp_apply, testBit_cnotIndex]
  grind

theorem exchangeIndex_comm {p q : Qubit} (h : p ≠ q) : exchangeIndex p q = exchangeIndex q p := by
  funext k
  refine Nat.eq_of_testBit_eq fun x => ?_
  rw [testBit_exchangeIndex h, testBit_exchangeIndex h.symm]
  grind

namespace Standard

theorem permutes_exchange (hM : Standard s matrix) {a b : Qubit} (h : a ≠ b) :
    Permutes matrix [.cnot a b, .hadamard a, .hadamard b, .cnot a b, .hadamard a, .hadamard b,
      .cnot a b] (exchangeIndex a b) := by
  have cnot := hM.permutes_cnot
  have middle := (cnot b a).of_run_eq (hM.turned h)
  exact (cnot a b).conjugate middle (cnot a b)

theorem permutes_swapGates (hM : Standard s matrix) (m : MethodMatrix) {q : Qubit} (h : q ≠ hub) :
    Permutes matrix (m.swapGates q) (exchangeIndex q hub) := by
  unfold MethodMatrix.swapGates
  cases m.native q hub with
  | true => exact hM.permutes_exchange h
  | false =>
    rw [exchangeIndex_comm h]
    exact hM.permutes_exchange h.symm

/-- While the control is exchanged with the hub, the CNOT from the hub is the one from the control.
-/
theorem run_swap_control (hM : Standard s matrix) (m : MethodMatrix) {c t : Qubit}
    {gates : List Gate} (hc : c ≠ hub) (ht : t ≠ hub) (hct : c ≠ t)
    (hg : Wave.run matrix gates = Wave.run matrix [.cnot hub t]) :
    Wave.run matrix (m.swapGates c ++ gates ++ m.swapGates c) = Wave.run matrix [.cnot c t] := by
  have swap := hM.permutes_swapGates m hc
  have core := (hM.permutes_cnot hub t).of_run_eq hg
  refine (swap.conjugate core swap).run_eq (hM.permutes_cnot c t) fun k x => ?_
  simp only [Function.comp_apply, testBit_exchangeIndex hc, testBit_cnotIndex]
  grind

theorem run_swap_target (hM : Standard s matrix) (m : MethodMatrix) {c t : Qubit}
    {gates : List Gate} (hc : c ≠ hub) (ht : t ≠ hub) (hct : c ≠ t)
    (hg : Wave.run matrix gates = Wave.run matrix [.cnot c hub]) :
    Wave.run matrix (m.swapGates t ++ gates ++ m.swapGates t) = Wave.run matrix [.cnot c t] := by
  have swap := hM.permutes_swapGates m ht
  have core := (hM.permutes_cnot c hub).of_run_eq hg
  refine (swap.conjugate core swap).run_eq (hM.permutes_cnot c t) fun k x => ?_
  simp only [Function.comp_apply, testBit_exchangeIndex ht, testBit_cnotIndex]
  grind

theorem run_turned (hM : Standard s matrix) {c t : Qubit} (hct : c ≠ t) :
    Wave.run matrix (MethodMatrix.turned c t) = Wave.run matrix [.cnot c t] := hM.turned' hct

theorem run_hubTemplate (hM : Standard s matrix) {c t : Qubit} {r : RelayMethod} (hct : c ≠ t)
    (hhub : r.isRelay = true → c ≠ hub ∧ t ≠ hub) :
    Wave.run matrix (MethodMatrix.hubTemplate c t r) = Wave.run matrix [.cnot c t] := by
  cases r with
  | direct => rfl
  | flipped => exact hM.run_turned hct
  | forwardForward =>
    obtain ⟨hc, ht⟩ := hhub rfl
    exact hM.nested_window hc hct ht.symm (rfl : Wave.run matrix [.cnot hub t] = _)
  | forwardBackward =>
    obtain ⟨hc, ht⟩ := hhub rfl
    exact hM.run_forward_backward hc hct ht.symm
  | backwardForward =>
    obtain ⟨hc, ht⟩ := hhub rfl
    exact hM.run_backward_forward hc hct ht.symm
  | backwardBackward =>
    obtain ⟨hc, ht⟩ := hhub rfl
    exact hM.run_backward_backward hc hct ht.symm

end Standard

end QubitRouting
