import QubitRouting.Proofs.Routing.Replacement
import QubitRouting.Proofs.Table.Cheapest
import QubitRouting.Table.Routing

/-!
Routing over a table preserves the meaning of circuits. A NOT with one control is replaced by the
gates of its path, which perform the same CNOT on any state of the device; all other gates are
copied, except that a NOT with more controls is refused.
-/

namespace QubitRouting

namespace RoutingTable

open QubitRouting.Graph

variable {R : Type} [CommRing R] {s : R} {matrix : GateKind → Matrix2 R}
  {g : Graph} {limit : Option Nat} {t : RoutingTable} {v w : Qubit}

theorem entry_replaces (hM : Standard s matrix) (ht : build g limit = .ok t) (hv : v < g.size)
    (hw : w < g.size) (hvw : v ≠ w) (hn : g.adjacent v w = false) :
    ∃ e, t.get? v w = some e ∧ Circuit.Replaces matrix g.size (.cnot v w) e.path.gates := by
  obtain ⟨e, p, he, first, hpath⟩ := exists_choice ht hv hw hvw hn
  have routes := routes_of_mem_candidates hvw hv hw first.mem
  refine ⟨e, he, ?_, ?_⟩
  · rw [hpath]
    exact routes.gates_fit
  · rw [hpath]
    exact routes.run_gates hM hvw

theorem isControlledNot_iff {gate : Gate} :
    isControlledNot gate = true ↔ gate.isToffoli = true ∧ gate.controls.length ≠ 0 := by
  simp [isControlledNot]

theorem routeGate_of_crowded {gate : Gate} (hnot : gate.isToffoli = true)
    (h : 2 ≤ gate.controls.length) : t.routeGate gate = .error gate.refusal := by
  have hcontrolled := isControlledNot_iff.2 ⟨hnot, by omega⟩
  rw [routeGate, if_neg (by simp [hcontrolled]), Gate.interaction_of_crowded h, error_bind]

/-- A NOT with one control is copied where its first pair is native, and else replaced by the gates
of the path of that pair. -/
theorem routeGate_of_pair {gate : Gate} {control : Control} {target : Qubit} {rest : List Qubit}
    (hfit : gate.Fits t.size) (hnot : gate.isToffoli = true) (hc : gate.controls = [control])
    (htargets : gate.targets = target :: rest) :
    t.routeGate gate =
      if t.graph.adjacent control.line target then .ok [gate]
      else match t.get? control.line target with
        | none => .error (.unreachable control.line target)
        | some entry => .ok (control.wrap entry.path.gates) := by
  obtain ⟨hline, htarget, -⟩ := hfit.pair hc htargets
  have hcontrolled := isControlledNot_iff.2 ⟨hnot, by simp [hc]⟩
  rw [routeGate, if_neg (by simp [hcontrolled]),
    Gate.interaction_eq_ok_iff.2 ⟨hc, rest, htargets⟩, ok_bind]
  simp only [Nat.not_le.2 hline, Nat.not_le.2 htarget, if_false]
  rfl

theorem routeGate_of_single (hM : Standard s matrix) (ht : build g limit = .ok t) {gate : Gate}
    (hfit : gate.Fits t.size) (hnot : gate.isToffoli = true) (hc : gate.controls.length = 1)
    (hone : gate.targets.length = 1) :
    ∃ part, t.routeGate gate = .ok part ∧ Circuit.Replaces matrix t.size gate part := by
  obtain ⟨control, target, heq, -⟩ := Gate.interaction_of_single hc hone
  have hkind : gate.kind = .toffoli := by simpa [Gate.isToffoli] using hnot
  rw [hkind] at heq
  obtain ⟨hline, htarget, hne⟩ := (heq ▸ hfit).single
  have hgraph := build_graph ht
  rw [routeGate_of_pair hfit hnot (congrArg Gate.controls heq) (congrArg Gate.targets heq)]
  cases hn : t.graph.adjacent control.line target with
  | true => exact ⟨[gate], rfl, .self hfit⟩
  | false =>
    rw [size, hgraph] at hline htarget
    rw [hgraph] at hn
    obtain ⟨e, he, hreplaces⟩ := entry_replaces hM ht hline htarget hne hn
    rw [he]
    refine ⟨control.wrap e.path.gates, rfl, ?_⟩
    rw [heq, size, hgraph]
    exact hreplaces.wrap hM hline hne

theorem routeGate_replaces (hM : Standard s matrix) (ht : build g limit = .ok t) {gate : Gate}
    (hfit : gate.Fits t.size) (hone : gate.isCnot = true → gate.targets.length = 1)
    (hfew : gate.isToffoli = true → gate.controls.length ≤ 1) :
    ∃ part, t.routeGate gate = .ok part ∧ Circuit.Replaces matrix t.size gate part := by
  cases hcontrolled : isControlledNot gate with
  | false =>
    refine ⟨[gate], ?_, .self hfit⟩
    rw [routeGate, if_pos (by simp [hcontrolled])]
  | true =>
    obtain ⟨hnot, hsome⟩ := isControlledNot_iff.1 hcontrolled
    have hc : gate.controls.length = 1 := by
      have := hfew hnot
      omega
    exact routeGate_of_single hM ht hfit hnot hc (hone (by simp [Gate.isCnot, hnot, hc]))

/-- Routing fails at the first NOT with more than one control, and else gives a circuit on all
qubits of the device that acts like the one that was routed, on lines that it leaves idle too. -/
theorem route_meaning (hM : Standard s matrix) (ht : build g limit = .ok t) {c : Circuit}
    (hl : c.lines ≤ t.size) (hv : c.Valid)
    (hone : ∀ gate ∈ c.gates, gate.isCnot = true → gate.targets.length = 1) :
    (∀ first, c.gates.find? (fun gate => gate.isToffoli && 2 ≤ gate.controls.length) = some first →
      t.route c = .error (.unsupportedGate first.text first.controls.length)) ∧
    ((∀ gate ∈ c.gates, gate.isToffoli = true → gate.controls.length ≤ 1) →
      ∃ out, t.route c = .ok out ∧ out.circuit.lines = t.size ∧ out.skipped = none ∧
        ActAlike matrix t.size out.circuit.gates c.gates) := by
  have hrefused : ∀ gate ∈ c.gates, gate.isToffoli = true → 2 ≤ gate.controls.length →
      t.routeGate gate = .error gate.refusal := fun _ _ => routeGate_of_crowded
  have hrouted : ∀ gate ∈ c.gates, (gate.isToffoli = true → gate.controls.length ≤ 1) →
      ∃ part, t.routeGate gate = .ok part ∧ Circuit.Replaces matrix t.size gate part := by
    intro gate hgate hfew
    exact routeGate_replaces hM ht ((hv gate hgate).mono hl) (hone gate hgate) hfew
  exact (Circuit.routeBy_meaning matrix Gate.isToffoli hl hv hrefused hrouted).2

/-- A NOT under a negative control is routed along a row of three qubits. -/
theorem route_of_row : ∃ t out, build (row 3) none = .ok t ∧
    t.route ⟨"ends", 3, [.toffoli [⟨0, false⟩] 2, .hadamard 1]⟩ = .ok out ∧
    ActAlike GateKind.modular 3 out.circuit.gates [.toffoli [⟨0, false⟩] 2, .hadamard 1] := by
  obtain ⟨t, ht⟩ := exists_build_row
  have hsize : t.size = 3 := by rw [size, build_graph ht]; rfl
  have meaning := route_meaning (c := ⟨"ends", 3, [.toffoli [⟨0, false⟩] 2, .hadamard 1]⟩)
    standard_modular ht hsize.ge (by decide) (by decide)
  obtain ⟨out, hout, -, -, halike⟩ := meaning.2 (by decide)
  exact ⟨t, out, ht, hout, hsize ▸ halike⟩

end RoutingTable

end QubitRouting
