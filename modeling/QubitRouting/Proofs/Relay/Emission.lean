import QubitRouting.Proofs.Simulation.Cnot
import QubitRouting.Routing.Router

/-!
The gates of single moves. A relay is two CNOTs of opposite directions over its edge, whichever way
the edge points; between a relay and its undoing, the CNOT of the new place is that of the old one.
A three-qubit relay carries a CNOT over its middle qubit, as deep as it nests.
-/

namespace QubitRouting

variable {R : Type} [CommRing R] {s : R} {matrix : GateKind → Matrix2 R}

def Relay.cnots (r : Relay) : List Gate :=
  if (r.carried = .control) = (r.undoing = false) then
    [.cnot r.dest r.source, .cnot r.source r.dest]
  else [.cnot r.source r.dest, .cnot r.dest r.source]

namespace Standard

theorem turned_edge (hM : Standard s matrix) {r : Relay} (h : r.source ≠ r.dest) :
    Wave.run matrix (hadamards r.source r.dest ++ [.cnot r.edge.1 r.edge.2] ++
      hadamards r.source r.dest) = Wave.run matrix [.cnot r.edge.2 r.edge.1] := by
  unfold Relay.edge
  cases r.heading with
  | along => exact hM.turned h
  | against => exact hM.turned' h

theorem run_relay (hM : Standard s matrix) {r : Relay} (h : r.source ≠ r.dest) :
    Wave.run matrix r.gates = Wave.run matrix r.cnots := by
  have turned := hM.turned_edge h
  have first : Wave.run matrix r.gates = if r.reversedFirst
      then Wave.run matrix [.cnot r.edge.2 r.edge.1, .cnot r.edge.1 r.edge.2]
      else Wave.run matrix [.cnot r.edge.1 r.edge.2, .cnot r.edge.2 r.edge.1] := by
    unfold Relay.gates
    split_ifs with hr
    · simpa [hr] using Wave.run_in_context matrix turned [] [.cnot r.edge.1 r.edge.2]
    · simpa [hr] using Wave.run_in_context matrix turned [.cnot r.edge.1 r.edge.2] []
  rw [first]
  obtain ⟨carried, heading, undoing, a, b⟩ := r
  cases carried <;> cases heading <;> cases undoing <;> rfl

/-- Between a relay of the control and its undoing, the CNOT from the new place is the CNOT from the
old place. -/
theorem carry_control (hM : Standard s matrix) {a b t : Qubit} (hab : a ≠ b) (hat : a ≠ t)
    (hbt : b ≠ t) :
    Wave.run matrix ([.cnot b a, .cnot a b] ++ [.cnot b t] ++ [.cnot a b, .cnot b a]) =
      Wave.run matrix [.cnot a t] := by
  have cnot := hM.permutes_cnot
  have all := ((cnot b a).append (cnot a b)).conjugate (cnot b t) ((cnot a b).append (cnot b a))
  refine all.run_eq (cnot a t) fun k q => ?_
  simp only [Function.comp_apply, testBit_cnotIndex]
  grind

theorem carry_target (hM : Standard s matrix) {a b c : Qubit} (hab : a ≠ b) (hac : a ≠ c)
    (hbc : b ≠ c) :
    Wave.run matrix ([.cnot a b, .cnot b a] ++ [.cnot c b] ++ [.cnot b a, .cnot a b]) =
      Wave.run matrix [.cnot c a] := by
  have cnot := hM.permutes_cnot
  have all := ((cnot a b).append (cnot b a)).conjugate (cnot c b) ((cnot b a).append (cnot a b))
  refine all.run_eq (cnot c a) fun k q => ?_
  simp only [Function.comp_apply, testBit_cnotIndex]
  grind

/-- A window `W` for the CNOT from `b` to `c`, wrapped as `CX W CX W`. -/
theorem nested_window (hM : Standard s matrix) {a b c : Qubit} (hab : a ≠ b) (hac : a ≠ c)
    (hbc : b ≠ c) {window : List Gate}
    (hw : Wave.run matrix window = Wave.run matrix [.cnot b c]) :
    Wave.run matrix (.cnot a b :: window ++ .cnot a b :: window) =
      Wave.run matrix [.cnot a c] := by
  have cnot := hM.permutes_cnot
  have inner : Permutes matrix window (cnotIndex b c) := (cnot b c).of_run_eq hw
  have all := ((cnot a b).append inner).append ((cnot a b).append inner)
  refine all.run_eq (cnot a c) fun k q => ?_
  simp only [Function.comp_apply, testBit_cnotIndex]
  grind

theorem run_flip (hM : Standard s matrix) {a b : Qubit} (h : a ≠ b) :
    Wave.run matrix (Move.flip a b).gates = Wave.run matrix [.cnot a b] := hM.turned' h

/-- A negative control is a positive one between NOT gates. -/
theorem run_wrap (hM : Standard s matrix) {kind : GateKind} {c : Control} {t : Qubit}
    (h : c.line ≠ t) {gates : List Gate}
    (hg : Wave.run matrix gates = Wave.run matrix [⟨kind, [⟨c.line, true⟩], [t]⟩]) :
    Wave.run matrix (c.wrap gates) = Wave.run matrix [⟨kind, [c], [t]⟩] := by
  obtain ⟨line, positive⟩ := c
  cases positive with
  | true => exact hg
  | false =>
    have not := hM.permutes_not line
    have split : Control.wrap ⟨line, false⟩ gates = [.not line] ++ gates ++ [.not line] := rfl
    funext ψ k
    rw [split, Wave.run_append, Wave.run_append, not, not, hg]
    have hfires : Fires [⟨line, true⟩] (flipLine line k) ↔ Fires [⟨line, false⟩] k := by
      simp [Fires]
    have htarget := testBit_flipLine_of_ne h k
    simp only [Wave.run, Wave.act, Wave.actOn, List.foldl_cons, List.foldl_nil,
      Function.comp_apply, hfires, htarget, flipLine_comm t line, flipLine_flipLine]

end Standard

end QubitRouting
