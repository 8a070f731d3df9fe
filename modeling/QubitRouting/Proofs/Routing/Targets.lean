import QubitRouting.Proofs.Routing.Compliance

/-!
Gates with several targets. A router looks at the first target only: a NOT whose first pair is
native is copied whole, whatever its other pairs are, and of any other the gates that replace it
flip the first target and no more. So a NOT with several targets is routed rightly by a table just
when all of its pairs are native, and by fixed templates never.
-/

namespace QubitRouting

variable {R : Type} [CommRing R] {s : R} {matrix : GateKind → Matrix2 R}

namespace Gate

variable {n : Nat} {gate : Gate} {control : Control} {t u : Qubit} {rest : List Qubit}

def AllNative (g : Graph) (gate : Gate) : Prop :=
  ∀ control ∈ gate.controls, ∀ target ∈ gate.targets, g.adjacent control.line target = true

def firstOnly (gate : Gate) : Gate := { gate with targets := gate.targets.take 1 }

theorem Fits.firstOnly (h : gate.Fits n) : gate.firstOnly.Fits n := by
  have hsub : gate.firstOnly.lines.Sublist gate.lines :=
    (List.Sublist.refl _).append (List.take_sublist 1 gate.targets)
  refine ⟨?_, h.distinct.sublist hsub, fun q hq => h.inside q (hsub.subset hq)⟩
  obtain ⟨t, rest, ht⟩ := List.exists_cons_of_ne_nil h.targets_ne
  simp [Gate.firstOnly, ht]

theorem Native.allNative {g : Graph} (h : gate.Native g) (hcnot : gate.isCnot = true) :
    gate.AllNative g := by
  obtain ⟨hnot, hone⟩ := isCnot_iff.1 hcnot
  rcases h hnot with hc | ⟨control, target, hc, ht, hadj⟩
  · simp [hc] at hone
  · rw [AllNative, hc, ht, List.forall_mem_singleton, List.forall_mem_singleton]
    exact hadj

theorem firstOnly_eq_self (h : gate.targets = [t]) : gate.firstOnly = gate := by
  rw [firstOnly, h, List.take_succ_cons, List.take_zero, ← h]

theorem isEmpty_of_single (h : gate.controls.length = 1) : gate.controls.isEmpty = false := by
  rw [List.isEmpty_eq_false_iff_exists_mem]
  exact List.exists_mem_of_length_pos (by omega)

def firingIndex (control : Control) : Nat := if control.positive then lineIndex control.line else 0

theorem fires_firingIndex (control : Control) : Fires [control] (firingIndex control) := by
  rw [Fires, List.forall_mem_singleton, firingIndex]
  cases control.positive <;> simp [testBit_lineIndex]

theorem testBit_firingIndex (h : u ≠ control.line) : (firingIndex control).testBit u = false := by
  rw [firingIndex]
  cases control.positive <;> simp [testBit_lineIndex, h.symm]

def probe (u : Qubit) : Wave R := fun k => if k.testBit u then 1 else 0

/-- What a NOT makes of the probe tells whether the line is one of its targets. -/
theorem act_probe (hM : Standard s matrix) {targets : List Qubit} (hn : targets.Nodup)
    (hc : control.line ∉ targets) (hu : u ≠ control.line) :
    Wave.act matrix ⟨.toffoli, [control], targets⟩ (probe u) (firingIndex control) =
      if u ∈ targets then 1 else 0 := by
  have hapart : ∀ q ∈ targets, q ∉ [control].map Control.line := by
    intro q hq hline
    rw [List.map_singleton, List.mem_singleton] at hline
    exact hc (hline ▸ hq)
  have hzero := testBit_firingIndex hu
  rw [hM.act_toffoli hapart, if_pos (fires_firingIndex control), probe]
  by_cases hmem : u ∈ targets
  · rw [if_pos hmem, testBit_flipLines_of_mem hn hmem, hzero]
    rfl
  · rw [if_neg hmem, testBit_flipLines_of_not_mem hmem, hzero]
    rfl

/-- A NOT on several targets does not act like the one on the first of them. -/
theorem run_firstOnly_ne [Nontrivial R] (hM : Standard s matrix) (hfit : gate.Fits n)
    (hnot : gate.isCnot = true) (htwo : 2 ≤ gate.targets.length) :
    Wave.run matrix [gate.firstOnly] ≠ Wave.run matrix [gate] := by
  intro hsame
  obtain ⟨kind, controls, targets⟩ := gate
  obtain ⟨hkind, hone⟩ := isCnot_iff.1 hnot
  obtain rfl : kind = .toffoli := of_decide_eq_true hkind
  obtain ⟨control, rfl⟩ := List.length_eq_one_iff.1 hone
  obtain ⟨t, u, rest, rfl⟩ : ∃ t u rest, targets = t :: u :: rest := by
    rcases targets with _ | ⟨t, _ | ⟨u, rest⟩⟩
    · simp at htwo
    · simp at htwo
    · exact ⟨t, u, rest, rfl⟩
  obtain ⟨hc, hn⟩ : control.line ∉ t :: u :: rest ∧ (t :: u :: rest).Nodup :=
    List.nodup_cons.1 hfit.distinct
  have hcu : u ≠ control.line := by
    rintro rfl
    exact hc (List.mem_cons_of_mem t List.mem_cons_self)
  have htu : u ∉ [t] := by
    intro hmem
    obtain rfl := List.mem_singleton.1 hmem
    exact (List.nodup_cons.1 hn).1 List.mem_cons_self
  have hct : control.line ∉ [t] := by
    intro hmem
    exact hc (List.mem_cons.2 (.inl (List.mem_singleton.1 hmem)))
  have hfirst := act_probe hM (List.nodup_singleton t) hct hcu
  have hwhole := act_probe hM hn hc hcu
  rw [if_neg htu] at hfirst
  rw [if_pos (List.mem_cons_of_mem t List.mem_cons_self)] at hwhole
  have heq := congrFun (congrFun hsame (probe u)) (firingIndex control)
  exact zero_ne_one (hfirst.symm.trans (heq.trans hwhole))

theorem not_actAlike_of_firstOnly [Nontrivial R] (hM : Standard s matrix) (hfit : gate.Fits n)
    (hnot : gate.isCnot = true) (htwo : 2 ≤ gate.targets.length) {gates : List Gate}
    (hfirst : ActAlike matrix n gates [gate.firstOnly]) : ¬ ActAlike matrix n gates [gate] := by
  intro hwhole
  apply run_firstOnly_ne hM hfit hnot htwo
  funext ψ
  exact (hfirst.waves ψ).symm.trans (hwhole.waves ψ)

end Gate

/-- The router gives a circuit that acts like the one it was given, and whose NOTs with one control
are native for all of their targets. -/
def Router.Performs (r : Router) (g : Graph) (matrix : GateKind → Matrix2 R) (c : Circuit) : Prop :=
  ∃ out, r.route c = .ok out ∧ ActAlike matrix r.size out.circuit.gates c.gates ∧
    ∀ x ∈ out.circuit.gates, x.isCnot = true → x.AllNative g

namespace RoutingTable

variable {g : Graph} {limit : Option Nat} {t : RoutingTable} {gate : Gate} {c : Circuit}

/-- The gate whose action a table performs: of a NOT with one control the part on the first target,
unless the first pair is native. -/
def performed (t : RoutingTable) (gate : Gate) : Gate :=
  match gate.controls, gate.targets with
  | [control], target :: _ =>
    if gate.isToffoli && !t.graph.adjacent control.line target then gate.firstOnly else gate
  | _, _ => gate

theorem performed_of_copied
    (h : ∀ control target rest, gate.isToffoli = true → gate.controls = [control] →
      gate.targets = target :: rest → t.graph.adjacent control.line target = true) :
    t.performed gate = gate := by
  unfold performed
  split
  · next control target rest hc ht =>
    cases hnot : gate.isToffoli with
    | false => simp
    | true => simp [h control target rest hnot hc ht]
  · rfl

theorem performed_of_routed {control : Control} {target : Qubit} {rest : List Qubit}
    (hnot : gate.isToffoli = true) (hc : gate.controls = [control])
    (htargets : gate.targets = target :: rest)
    (hn : t.graph.adjacent control.line target = false) : t.performed gate = gate.firstOnly := by
  simp [performed, hc, htargets, hnot, hn]

theorem routeGate_firstOnly {control : Control} {target : Qubit} {rest : List Qubit}
    (hfit : gate.Fits t.size) (hnot : gate.isToffoli = true) (hc : gate.controls = [control])
    (htargets : gate.targets = target :: rest)
    (hn : t.graph.adjacent control.line target = false) :
    t.routeGate gate.firstOnly = t.routeGate gate := by
  have hfirst : gate.firstOnly.targets = [target] := by simp [Gate.firstOnly, htargets]
  rw [routeGate_of_pair hfit hnot hc htargets, routeGate_of_pair hfit.firstOnly hnot hc hfirst, hn]
  rfl

/-- Every gate that is not refused is replaced by gates that act like the performed one. -/
theorem routeGate_performs (hM : Standard s matrix) (ht : build g limit = .ok t)
    (hfit : gate.Fits t.size) (hfew : gate.isToffoli = true → gate.controls.length ≤ 1) :
    (t.performed gate).Fits t.size ∧
      ∃ part, t.routeGate gate = .ok part ∧
        Circuit.Replaces matrix t.size (t.performed gate) part := by
  cases hcontrolled : isControlledNot gate with
  | false =>
    have hsame : t.performed gate = gate := by
      apply performed_of_copied
      intro control target rest hnot hc
      simp [isControlledNot, hnot, hc] at hcontrolled
    rw [hsame]
    exact ⟨hfit, [gate], by rw [routeGate, if_pos (by simp [hcontrolled])], .self hfit⟩
  | true =>
    obtain ⟨hnot, hsome⟩ := isControlledNot_iff.1 hcontrolled
    obtain ⟨control, hc⟩ : ∃ control, gate.controls = [control] := by
      have hone := hfew hnot
      exact List.length_eq_one_iff.1 (by omega)
    obtain ⟨target, rest, htargets⟩ := List.exists_cons_of_ne_nil hfit.targets_ne
    cases hn : t.graph.adjacent control.line target with
    | true =>
      have hsame : t.performed gate = gate := by
        apply performed_of_copied
        intro control' target' rest' _ hc' ht'
        obtain rfl := (List.cons.inj (hc.symm.trans hc')).1
        obtain rfl := (List.cons.inj (htargets.symm.trans ht')).1
        exact hn
      rw [hsame]
      refine ⟨hfit, [gate], ?_, .self hfit⟩
      rw [routeGate_of_pair hfit hnot hc htargets, if_pos hn]
    | false =>
      rw [performed_of_routed hnot hc htargets hn,
        ← routeGate_firstOnly hfit hnot hc htargets hn]
      refine ⟨hfit.firstOnly, routeGate_replaces hM ht hfit.firstOnly ?_ hfew⟩
      simp [Gate.firstOnly, htargets]

theorem route_performed (hM : Standard s matrix) (ht : build g limit = .ok t)
    (hl : c.lines ≤ t.size) (hv : c.Valid)
    (hfew : ∀ gate ∈ c.gates, gate.isToffoli = true → gate.controls.length ≤ 1) :
    ∃ out, t.route c = .ok out ∧
      ActAlike matrix t.size out.circuit.gates (c.gates.map t.performed) ∧
      ∀ x ∈ out.circuit.gates, x.NativeFirst g := by
  have hgates := fun gate hgate =>
    routeGate_performs hM ht ((hv gate hgate).mono hl) (hfew gate hgate)
  obtain ⟨out, hout, -, -, halike⟩ := Circuit.routeBy_performs t.performed hl hgates
  refine ⟨out, hout, halike, ?_⟩
  intro x hx
  obtain ⟨-, gate, hgate, part, hpart, hx⟩ := (Circuit.of_routeBy hl hout).2 x hx
  rcases elementary_or_copied ht ((hv gate hgate).mono hl) hpart hx with hx | ⟨-, rfl, hnative⟩
  · exact hx.nativeFirst
  · exact hnative

theorem performed_eq_self (ht : t.graph = g)
    (hall : gate.isCnot = true → 2 ≤ gate.targets.length → gate.AllNative g) :
    t.performed gate = gate := by
  unfold performed
  split
  · next control target rest hc htargets =>
    split_ifs with hcase
    · rw [Bool.and_eq_true, Bool.not_eq_true'] at hcase
      obtain ⟨hnot, hn⟩ := hcase
      have hcnot : gate.isCnot = true := Gate.isCnot_iff.2 ⟨hnot, by simp [hc]⟩
      cases rest with
      | nil => exact Gate.firstOnly_eq_self htargets
      | cons u rest =>
        have hadj := hall hcnot (by simp [htargets]) control (by simp [hc]) target
          (by simp [htargets])
        rw [ht, hadj] at hn
        cases hn
    · rfl
  · rfl

/-- A table performs a circuit when all pairs of its NOTs with several targets are native. -/
theorem performs_of_allNative (hM : Standard s matrix) (ht : build g limit = .ok t)
    (hl : c.lines ≤ t.size) (hv : c.Valid)
    (hfew : ∀ gate ∈ c.gates, gate.isToffoli = true → gate.controls.length ≤ 1)
    (hall : ∀ gate ∈ c.gates, gate.isCnot = true → 2 ≤ gate.targets.length → gate.AllNative g) :
    t.router.Performs g matrix c := by
  obtain ⟨out, hout, halike, -⟩ := route_performed hM ht hl hv hfew
  have hsame : c.gates.map t.performed = c.gates := by
    rw [← List.map_id c.gates, List.map_map]
    apply List.map_congr_left
    intro gate hgate
    exact performed_eq_self (build_graph ht) (hall gate hgate)
  rw [hsame] at halike
  refine ⟨out, hout, halike, ?_⟩
  intro x hx hcnot
  obtain ⟨-, gate, hgate, part, hpart, hx⟩ := (Circuit.of_routeBy hl hout).2 x hx
  rcases elementary_or_copied ht ((hv gate hgate).mono hl) hpart hx with hx | ⟨-, rfl, hnative⟩
  · exact hx.native.allNative hcnot
  · by_cases htwo : 2 ≤ x.targets.length
    · exact hall x hgate hcnot htwo
    · have hpos := List.length_pos_of_ne_nil (hv x hgate).targets_ne
      exact (hnative.native fun _ => by omega).allNative hcnot

/-- Else it loses a target, or copies a pair that is not native. -/
theorem not_performs [Nontrivial R] (hM : Standard s matrix) (ht : build g limit = .ok t)
    (hl : c.lines ≤ t.size) (hv : c.Valid) (hc : c.gates = [gate]) (hcnot : gate.isCnot = true)
    (htwo : 2 ≤ gate.targets.length) (hsome : ¬ gate.AllNative g) :
    ¬ t.router.Performs g matrix c := by
  rintro ⟨out, hout, halike, hall⟩
  have hgate : gate ∈ c.gates := by simp [hc]
  have hfit := (hv gate hgate).mono hl
  obtain ⟨hnot, hone⟩ := Gate.isCnot_iff.1 hcnot
  obtain ⟨control, hcontrols⟩ := List.length_eq_one_iff.1 hone
  obtain ⟨target, rest, htargets⟩ := List.exists_cons_of_ne_nil hfit.targets_ne
  have hemitted : t.routeGate gate = .ok out.circuit.gates := Circuit.of_routeBy_single hl hc hout
  cases hn : t.graph.adjacent control.line target with
  | true =>
    rw [routeGate_of_pair hfit hnot hcontrols htargets, if_pos hn] at hemitted
    apply hsome
    apply hall gate _ hcnot
    rw [← Except.ok.inj hemitted]
    exact List.mem_singleton_self gate
  | false =>
    have hfew : ∀ x ∈ c.gates, x.isToffoli = true → x.controls.length ≤ 1 := by
      rw [hc, List.forall_mem_singleton]
      exact fun _ => hone.le
    obtain ⟨out', hout', hperformed, -⟩ := route_performed hM ht hl hv hfew
    obtain rfl := Except.ok.inj (hout.symm.trans hout')
    rw [hc, List.map_singleton, performed_of_routed hnot hcontrols htargets hn] at hperformed
    rw [hc] at halike
    exact Gate.not_actAlike_of_firstOnly hM hfit hcnot htwo hperformed halike

end RoutingTable

namespace MethodMatrix

variable {w : Rˣ} {name : String} {g : Graph} {m : MethodMatrix} {variant : Variant} {gate : Gate}
  {c : Circuit}

/-- The gate whose action fixed templates perform: of a NOT or a square root of NOT with a control
the part on the first target. -/
def performed (gate : Gate) : Gate :=
  if gate.isRewritten && !gate.controls.isEmpty then gate.firstOnly else gate

theorem routeGate_firstOnly {control : Control} (hfit : gate.Fits templateSize)
    (hkind : gate.isRewritten = true) (hc : gate.controls = [control]) :
    m.routeGate variant gate.firstOnly = m.routeGate variant gate := by
  obtain ⟨target, rest, htargets⟩ := List.exists_cons_of_ne_nil hfit.targets_ne
  have hfirst : gate.firstOnly.targets = [target] := by simp [Gate.firstOnly, htargets]
  have hinter := Gate.interaction_eq_ok_iff.2 ⟨hc, rest, htargets⟩
  have hc' : gate.firstOnly.controls = [control] := hc
  have hinter' := Gate.interaction_eq_ok_iff.2 ⟨hc', [], hfirst⟩
  rw [routeGate_of_fits hfit, routeGate_of_fits hfit.firstOnly, hinter, hinter']
  obtain ⟨kind, controls, targets⟩ := gate
  obtain rfl : controls = [control] := hc
  cases kind with
  | toffoli => rfl
  | v adjoint => rfl
  | hadamard => cases hkind
  | pauli => cases hkind

theorem routeGate_performs (hM : Rooted s w matrix) (h : ofGraph name g = .ok m)
    (hfit : gate.Fits templateSize) (hfew : gate.isRewritten = true → gate.controls.length ≤ 1) :
    (performed gate).Fits templateSize ∧
      ∃ part, m.routeGate variant gate = .ok part ∧
        Circuit.Replaces matrix templateSize (performed gate) part := by
  have sound := sound_of_ofGraph h
  rw [performed]
  split_ifs with hcase
  · obtain ⟨hkind, hsome⟩ := Bool.and_eq_true_iff.1 hcase
    obtain ⟨control, hc⟩ : ∃ control, gate.controls = [control] := by
      have hone := hfew hkind
      have hne : gate.controls.length ≠ 0 := by simpa using hsome
      exact List.length_eq_one_iff.1 (by omega)
    obtain ⟨target, rest, htargets⟩ := List.exists_cons_of_ne_nil hfit.targets_ne
    rw [← routeGate_firstOnly hfit hkind hc]
    refine ⟨hfit.firstOnly, routeGate_replaces hM sound hfit.firstOnly ?_ hfew⟩
    simp [Gate.firstOnly, htargets]
  · refine ⟨hfit, routeGate_replaces hM sound hfit ?_ hfew⟩
    intro hkind hc
    simp [hkind, Gate.isEmpty_of_single hc] at hcase

theorem route_performed (hM : Rooted s w matrix) (h : ofGraph name g = .ok m)
    (hl : c.lines ≤ templateSize) (hv : c.Valid)
    (hfew : ∀ gate ∈ c.gates, gate.isRewritten = true → gate.controls.length ≤ 1) :
    ∃ out, m.route variant c = .ok out ∧
      ActAlike matrix templateSize out.circuit.gates (c.gates.map performed) ∧
      ∀ x ∈ out.circuit.gates, x.Native g := by
  have hgates : ∀ gate ∈ c.gates, (performed gate).Fits templateSize ∧
      ∃ part, m.routeGate variant gate = .ok part ∧
        Circuit.Replaces matrix templateSize (performed gate) part :=
    fun gate hgate => routeGate_performs hM h ((hv gate hgate).mono hl) (hfew gate hgate)
  obtain ⟨out, hout, -, -, halike⟩ := Circuit.routeBy_performs performed hl hgates
  refine ⟨out, hout, halike, ?_⟩
  intro x hx
  obtain ⟨-, gate, hgate, part, hpart, hx⟩ := (Circuit.of_routeBy hl hout).2 x hx
  rcases elementary_or_copied h ((hv gate hgate).mono hl) hpart hx with hx | ⟨-, rfl, hcopied⟩
  · exact hx.native
  · intro hnot
    rw [Gate.isRewritten_of_isToffoli hnot] at hcopied
    cases hcopied

/-- Of a NOT with several targets they lose all but the first. -/
theorem not_performs [Nontrivial R] (hM : Rooted s w matrix) (h : ofGraph name g = .ok m)
    (hl : c.lines ≤ templateSize) (hv : c.Valid) (hc : c.gates = [gate])
    (hcnot : gate.isCnot = true) (htwo : 2 ≤ gate.targets.length) :
    ¬ (m.router variant).Performs g matrix c := by
  rintro ⟨out, hout, halike, -⟩
  have hgate : gate ∈ c.gates := by simp [hc]
  obtain ⟨hnot, hone⟩ := Gate.isCnot_iff.1 hcnot
  have hfew : ∀ x ∈ c.gates, x.isRewritten = true → x.controls.length ≤ 1 := by
    rw [hc, List.forall_mem_singleton]
    exact fun _ => hone.le
  obtain ⟨out', hout', hperformed, -⟩ := route_performed hM h hl hv hfew
  obtain rfl := Except.ok.inj (hout.symm.trans hout')
  have hfirst : performed gate = gate.firstOnly := by
    simp [performed, Gate.isRewritten_of_isToffoli hnot, Gate.isEmpty_of_single hone]
  rw [hc, List.map_singleton, hfirst] at hperformed
  rw [hc] at halike
  have hfit := (hv gate hgate).mono hl
  exact Gate.not_actAlike_of_firstOnly hM.toStandard hfit hcnot htwo hperformed halike

end MethodMatrix

/-- What becomes of NOTs with several targets. Both routers perform of a NOT with one control the
part on its first target, except that a table copies it whole where the first pair is native. So a
table performs a circuit when all pairs of such NOTs are native, but no single one of them with a
pair that is not; fixed templates perform none. -/
theorem targets_performed {s : R} {w : Rˣ} [Nontrivial R] (hM : Rooted s w matrix) {c : Circuit}
    (hv : c.Valid) :
    (∀ g limit t, RoutingTable.build g limit = .ok t → c.lines ≤ t.size →
      (∀ gate ∈ c.gates, gate.isToffoli = true → gate.controls.length ≤ 1) →
      (∃ out, t.route c = .ok out ∧
        ActAlike matrix t.size out.circuit.gates (c.gates.map t.performed) ∧
        ∀ x ∈ out.circuit.gates, x.NativeFirst g) ∧
      ((∀ gate ∈ c.gates, gate.isCnot = true → 2 ≤ gate.targets.length → gate.AllNative g) →
        t.router.Performs g matrix c) ∧
      ∀ gate, c.gates = [gate] → gate.isCnot = true → 2 ≤ gate.targets.length →
        ¬ gate.AllNative g → ¬ t.router.Performs g matrix c) ∧
    (∀ name g m variant, MethodMatrix.ofGraph name g = .ok m → c.lines ≤ templateSize →
      (∀ gate ∈ c.gates, gate.isRewritten = true → gate.controls.length ≤ 1) →
      (∃ out, m.route variant c = .ok out ∧
        ActAlike matrix templateSize out.circuit.gates (c.gates.map MethodMatrix.performed) ∧
        ∀ x ∈ out.circuit.gates, x.Native g) ∧
      ∀ gate, c.gates = [gate] → gate.isCnot = true → 2 ≤ gate.targets.length →
        ¬ (m.router variant).Performs g matrix c) := by
  constructor
  · intro g limit t ht hl hfew
    refine ⟨RoutingTable.route_performed hM.toStandard ht hl hv hfew,
      RoutingTable.performs_of_allNative hM.toStandard ht hl hv hfew, ?_⟩
    intro gate hc hcnot htwo hsome
    exact RoutingTable.not_performs hM.toStandard ht hl hv hc hcnot htwo hsome
  · intro name g m variant hm hl hfew
    refine ⟨MethodMatrix.route_performed hM hm hl hv hfew, ?_⟩
    intro gate hc hcnot htwo
    exact MethodMatrix.not_performs hM hm hl hv hc hcnot htwo

def fork : Graph := Graph.tabulate 3 fun c t => (c, t) ∈ [(1, 0), (0, 2)]

def fan : Circuit where
  name := "fan"
  lines := 3
  gates := [⟨.toffoli, [⟨0, true⟩], [1, 2]⟩]

/-- A NOT on two targets loses the second of them, on a table as with fixed templates. -/
theorem target_lost :
    (∃ t out, RoutingTable.build fork none = .ok t ∧ t.route fan = .ok out ∧
      ActAlike GateKind.modular t.size out.circuit.gates [.cnot 0 1] ∧
      ¬ t.router.Performs fork GateKind.modular fan) ∧
    ∃ m, MethodMatrix.ofGraph "star" MethodMatrix.star = .ok m ∧
      ¬ (m.router .template).Performs MethodMatrix.star GateKind.modular fan := by
  have : Nontrivial (ZMod 17) := ⟨⟨0, 1, by decide⟩⟩
  have performed := targets_performed rooted_modular (c := fan) (by decide)
  constructor
  · obtain ⟨t, ht⟩ := isOk_iff.1 (show (RoutingTable.build fork none).isOk = true by decide +kernel)
    have hgraph := RoutingTable.build_graph ht
    have hsize : t.size = 3 := by rw [RoutingTable.size, hgraph]; rfl
    obtain ⟨⟨out, hout, halike, -⟩, -, hlost⟩ := performed.1 _ _ t ht hsize.ge (by decide)
    have hfirst : fan.gates.map t.performed = [.cnot 0 1] := by
      have hnotNative : t.graph.adjacent 0 1 = false := by
        rw [hgraph]
        decide
      exact congrArg ([·]) (RoutingTable.performed_of_routed rfl rfl rfl hnotNative)
    rw [hfirst] at halike
    refine ⟨t, out, ht, hout, halike, hlost _ rfl rfl (by decide) ?_⟩
    intro hall
    exact absurd (hall ⟨0, true⟩ (by simp) 1 (by simp)) (by decide)
  · obtain ⟨m, hm⟩ := isOk_iff.1
      (show (MethodMatrix.ofGraph "star" MethodMatrix.star).isOk = true by decide +kernel)
    exact ⟨m, hm, (performed.2 _ _ m .template hm (by decide) (by decide)).2 _ rfl rfl (by decide)⟩

end QubitRouting
