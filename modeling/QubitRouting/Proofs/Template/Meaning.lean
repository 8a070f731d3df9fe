import QubitRouting.Proofs.Template.Root

/-!
Routing with fixed templates preserves the meaning of circuits, in both styles and for every matrix
of methods that a graph has. NOTs and square roots of NOT with one control are replaced by gates
that act like them, those with more controls are refused, and all other gates are copied.
-/

namespace QubitRouting

def Gate.isRewritten (g : Gate) : Bool :=
  match g.kind with
  | .toffoli => true
  | .v _ => true
  | _ => false

namespace MethodMatrix

variable {R : Type} [CommRing R] {s : R} {w : Rˣ} {matrix : GateKind → Matrix2 R}
  {m : MethodMatrix} {variant : Variant} {gate : Gate}

theorem routeGate_of_fits (hfit : gate.Fits templateSize) :
    m.routeGate variant gate =
      if gate.controls.isEmpty then .ok [gate]
      else match gate.kind with
        | .toffoli => do
          let (control, target) ← gate.interaction
          return control.wrap (← m.cnotGates variant control.line target)
        | .v adjoint => do
          let (control, target) ← gate.interaction
          return control.wrap (← m.rootGates variant adjoint control.line target)
        | _ => .ok [gate] := by
  have hfind : gate.lines.find? (templateSize ≤ ·) = none := by
    rw [List.find?_eq_none]
    intro q hq
    simpa using hfit.inside q hq
  rw [routeGate, hfind]
  rfl

theorem routeGate_of_crowded (hfit : gate.Fits templateSize) (hkind : gate.isRewritten = true)
    (h : 2 ≤ gate.controls.length) : m.routeGate variant gate = .error gate.refusal := by
  have hinter := Gate.interaction_of_crowded h
  have hsome : ¬ gate.controls.isEmpty = true := by
    rw [List.isEmpty_iff_length_eq_zero]
    omega
  rw [routeGate_of_fits hfit, if_neg hsome, hinter]
  unfold Gate.isRewritten at hkind
  split at hkind
  · exact error_bind _ _
  · exact error_bind _ _
  · cases hkind

theorem routeGate_of_single (hM : Rooted s w matrix) (hm : m.Sound)
    (hfit : gate.Fits templateSize) (hkind : gate.isRewritten = true)
    (hc : gate.controls.length = 1) (hone : gate.targets.length = 1) :
    ∃ part, m.routeGate variant gate = .ok part ∧
      Circuit.Replaces matrix templateSize gate part := by
  obtain ⟨control, target, heq, hinter⟩ := Gate.interaction_of_single hc hone
  obtain ⟨hline, htarget, hne⟩ := (heq ▸ hfit).single
  have hsome : ¬ gate.controls.isEmpty = true := by
    rw [List.isEmpty_iff_length_eq_zero]
    omega
  rw [routeGate_of_fits hfit, if_neg hsome, hinter]
  unfold Gate.isRewritten at hkind
  split at hkind
  · next hgate =>
    obtain ⟨gates, hgates, hreplaces⟩ :=
      cnotGates_replaces hM.toStandard hm variant hne hline htarget
    rw [hgate] at heq
    refine ⟨control.wrap gates, by simp only [ok_bind, hgates]; rfl, ?_⟩
    rw [heq]
    exact hreplaces.wrap hM.toStandard hline hne
  · next adjoint hgate =>
    obtain ⟨gates, hgates, hreplaces⟩ :=
      rootGates_replaces hM hm variant adjoint hne hline htarget
    rw [hgate] at heq
    refine ⟨control.wrap gates, by simp only [ok_bind, hgates]; rfl, ?_⟩
    rw [heq]
    exact hreplaces.wrap hM.toStandard hline hne
  · cases hkind

theorem routeGate_replaces (hM : Rooted s w matrix) (hm : m.Sound)
    (hfit : gate.Fits templateSize)
    (hone : gate.isRewritten = true → gate.controls.length = 1 → gate.targets.length = 1)
    (hfew : gate.isRewritten = true → gate.controls.length ≤ 1) :
    ∃ part, m.routeGate variant gate = .ok part ∧
      Circuit.Replaces matrix templateSize gate part := by
  by_cases hnone : gate.controls.isEmpty = true
  · refine ⟨[gate], ?_, .self hfit⟩
    rw [routeGate_of_fits hfit, if_pos hnone]
  · cases hkind : gate.isRewritten with
    | true =>
      rw [List.isEmpty_iff_length_eq_zero] at hnone
      have hc : gate.controls.length = 1 := by
        have := hfew hkind
        omega
      exact routeGate_of_single hM hm hfit hkind hc (hone hkind hc)
    | false =>
      refine ⟨[gate], ?_, .self hfit⟩
      rw [routeGate_of_fits hfit, if_neg hnone]
      unfold Gate.isRewritten at hkind
      split at hkind
      · cases hkind
      · cases hkind
      · rfl

/-- Routing by a built-in matrix or by that of a graph fails exactly when a NOT or a square root of
NOT has more than one control, and the first such gate is reported. Else it gives a circuit on the
five qubits that acts like the one that was routed. -/
theorem route_by_methods (hM : Rooted s w matrix)
    (hm : m = qx2 ∨ m = qx4 ∨ ∃ name g, ofGraph name g = .ok m) (variant : Variant) {c : Circuit}
    (hl : c.lines ≤ templateSize) (hv : c.Valid)
    (hone : ∀ gate ∈ c.gates, gate.isRewritten = true → gate.controls.length = 1 →
      gate.targets.length = 1) :
    ((∃ e, m.route variant c = .error e) ↔
      ∃ gate ∈ c.gates, gate.isRewritten = true ∧ 2 ≤ gate.controls.length) ∧
    (∀ first,
      c.gates.find? (fun gate => gate.isRewritten && 2 ≤ gate.controls.length) = some first →
      m.route variant c = .error (.unsupportedGate first.text first.controls.length)) ∧
    ((∀ gate ∈ c.gates, gate.isRewritten = true → gate.controls.length ≤ 1) →
      ∃ out, m.route variant c = .ok out ∧ out.circuit.lines = templateSize ∧
        out.skipped = none ∧ ActAlike matrix templateSize out.circuit.gates c.gates) := by
  have sound : m.Sound := by
    rcases hm with rfl | rfl | ⟨name, g, h⟩
    exacts [sound_qx2, sound_qx4, sound_of_ofGraph h]
  have hrefused : ∀ gate ∈ c.gates, gate.isRewritten = true → 2 ≤ gate.controls.length →
      m.routeGate variant gate = .error gate.refusal := by
    intro gate hgate hkind hmany
    exact routeGate_of_crowded ((hv gate hgate).mono hl) hkind hmany
  have hrouted : ∀ gate ∈ c.gates, (gate.isRewritten = true → gate.controls.length ≤ 1) →
      ∃ part, m.routeGate variant gate = .ok part ∧
        Circuit.Replaces matrix templateSize gate part := by
    intro gate hgate hfew
    exact routeGate_replaces hM sound ((hv gate hgate).mono hl) (hone gate hgate) hfew
  exact Circuit.routeBy_meaning matrix Gate.isRewritten hl hv hrefused hrouted

def star : Graph := Graph.tabulate templateSize fun _ t => t = hub

/-- A square root of NOT under a negative control is routed on the star in both styles. -/
theorem route_of_star : ∃ m, ofGraph "star" star = .ok m ∧
    (∃ out, m.route .swap ⟨"root", 4, [⟨.v true, [⟨0, false⟩], [3]⟩]⟩ = .ok out ∧
      ActAlike GateKind.modular 5 out.circuit.gates [⟨.v true, [⟨0, false⟩], [3]⟩]) ∧
    (∃ out, m.route .template ⟨"root", 4, [⟨.v true, [⟨0, false⟩], [3]⟩]⟩ = .ok out ∧
      ActAlike GateKind.modular 5 out.circuit.gates [⟨.v true, [⟨0, false⟩], [3]⟩]) := by
  obtain ⟨m, hm⟩ := isOk_iff.1 (show (ofGraph "star" star).isOk = true by decide +kernel)
  have meaning := fun variant => route_by_methods rooted_modular
    (Or.inr (Or.inr ⟨_, _, hm⟩)) variant (c := ⟨"root", 4, [⟨.v true, [⟨0, false⟩], [3]⟩]⟩)
    (by decide) (by decide) (by decide)
  obtain ⟨swapped, hswapped, -, -, swapAlike⟩ := (meaning .swap).2.2 (by decide)
  obtain ⟨out, hout, -, -, alike⟩ := (meaning .template).2.2 (by decide)
  exact ⟨m, hm, ⟨swapped, hswapped, swapAlike⟩, ⟨out, hout, alike⟩⟩

end MethodMatrix

end QubitRouting
