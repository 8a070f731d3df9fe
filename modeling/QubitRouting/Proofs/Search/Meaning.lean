import QubitRouting.Proofs.Device.Coupling
import QubitRouting.Proofs.Relay.Path
import QubitRouting.Proofs.Search.Invariant
import QubitRouting.Proofs.Simulation.Register
import QubitRouting.Search.Cheapest

/-!
The paths that a search finds perform the CNOT that was asked for, with the relays undone, and so do
the paths with merged relays. The induction is on the moves from the start: whatever performs the
CNOT of the places where they lead, performs between them and their undoing the CNOT of the start.
-/

namespace QubitRouting

namespace Relay

variable {g : Graph} {r : Relay}

theorem Native.apart (h : r.Native g) : r.source ≠ r.dest := by
  have he := Graph.ne_of_adjacent h
  obtain ⟨carried, heading, undoing, a, b⟩ := r
  cases heading with
  | along => exact he
  | against => exact he.symm

theorem Native.lt (h : r.Native g) : r.source < g.size ∧ r.dest < g.size := by
  obtain ⟨carried, heading, undoing, a, b⟩ := r
  cases heading with
  | along => exact Graph.lt_of_adjacent h
  | against => exact (Graph.lt_of_adjacent h).symm

theorem Native.coupled (h : r.Native g) : g.coupled r.source r.dest = true := by
  obtain ⟨carried, heading, undoing, a, b⟩ := r
  cases heading with
  | along => exact Bool.or_eq_true_iff.2 (Or.inl h)
  | against => exact Bool.or_eq_true_iff.2 (Or.inr h)

end Relay

namespace Graph

variable {g : Graph} {limit : Option Nat} {c₀ t₀ c t : Qubit} {relays : List Move}

theorem Leads.apart (h : g.Leads c₀ t₀ relays c t) (h₀ : c₀ ≠ t₀) : c ≠ t := by
  induction h with
  | start => exact h₀
  | @hop relays c t x carried heading _ hxc hxt _ ih =>
    cases carried with
    | control => exact hxt
    | target => exact hxc.symm

theorem Leads.native (h : g.Leads c₀ t₀ relays c t) :
    ∀ m ∈ relays, ∃ r : Relay, m = .relay r ∧ r.Native g ∧ r.undoing = false := by
  induction h with
  | start => exact fun m hm => by cases hm
  | @hop relays c t x carried heading _ _ _ hn ih =>
    intro m hm
    rcases List.mem_append.1 hm with hm | hm
    · exact ih m hm
    · refine ⟨_, List.mem_singleton.1 hm, hn, ?_⟩
      cases carried <;> rfl

theorem Leads.isRelays (h : g.Leads c₀ t₀ relays c t) : Path.Relays relays := by
  intro m hm
  obtain ⟨r, rfl, _⟩ := h.native m hm
  rfl

variable {R : Type} [CommRing R] {s : R} {matrix : GateKind → Matrix2 R}

theorem run_between_relay (hM : Standard s matrix) {x : Qubit} {carried : Carried}
    (heading : Heading) (hct : c ≠ t) (hxc : x ≠ c) (hxt : x ≠ t) {core : List Gate}
    (hcore : Wave.run matrix core = Wave.run matrix
      [.cnot (carried.places c t x).1 (carried.places c t x).2]) :
    let r := carried.relay heading c t x
    Wave.run matrix (r.gates ++ core ++ r.inverse.gates) = Wave.run matrix [.cnot c t] := by
  intro r
  have forth : Wave.run matrix r.gates = Wave.run matrix r.cnots := by
    cases carried with
    | control => exact hM.run_relay hxc.symm
    | target => exact hM.run_relay hxt.symm
  have back : Wave.run matrix r.inverse.gates = Wave.run matrix r.inverse.cnots := by
    cases carried with
    | control => exact hM.run_relay hxc.symm
    | target => exact hM.run_relay hxt.symm
  have resolved : Wave.run matrix (r.gates ++ core ++ r.inverse.gates) =
      Wave.run matrix (r.cnots ++ [.cnot (carried.places c t x).1 (carried.places c t x).2] ++
        r.inverse.cnots) := by
    funext ψ
    simp only [Wave.run_append, forth, hcore, back]
  rw [resolved]
  cases carried with
  | control => exact hM.carry_control hxc.symm hct hxt
  | target => exact hM.carry_target hxt.symm hct.symm hxc

/-- What performs the CNOT of the last places performs that of the first between the relays and
their undoing. -/
theorem Leads.run_between (hM : Standard s matrix) (h : g.Leads c₀ t₀ relays c t) (h₀ : c₀ ≠ t₀)
    {core : List Gate} (hcore : Wave.run matrix core = Wave.run matrix [.cnot c t]) :
    Wave.run matrix (relays.flatMap Move.gates ++ core ++
      (relays.reverse.map Move.inverse).flatMap Move.gates) = Wave.run matrix [.cnot c₀ t₀] := by
  induction h generalizing core with
  | start => simpa using hcore
  | @hop relays c t x carried heading h hxc hxt _ ih =>
    have step := ih (run_between_relay hM heading (h.apart h₀) hxc hxt hcore)
    simpa [Move.gates, Move.inverse, List.append_assoc] using step

def cabRun (relays : List Move) : Nat := (relays.reverse.takeWhile Move.isCab).length

theorem cabRun_concat (relays : List Move) (m : Move) :
    cabRun (relays ++ [m]) = if m.isCab then cabRun relays + 1 else 0 := by
  cases hm : m.isCab <;> simp [cabRun, hm]

/-- The control relays that lead to the control's place merge into nested three-qubit relays; those
before them lead to where the merged ones start. -/
theorem Leads.mergeRun (h : g.Leads c₀ t₀ relays c t) (h₀ : c₀ ≠ t₀) :
    ∃ a, g.Leads c₀ t₀ (Path.mergeRun t c relays.reverse).2.reverse a t ∧
      Path.Nested g t a c (Path.mergeRun t c relays.reverse).1 := by
  -- Only a control relay along an edge extends the run; after any other move it starts anew.
  induction h with
  | start => exact ⟨c₀, .start, .nil⟩
  | @hop relays c t x carried heading h hxc hxt hn ih =>
    have whole := h.hop hxc hxt hn
    rw [List.reverse_append]
    cases carried with
    | target =>
      refine ⟨c, ?_, .nil⟩
      simpa [Path.mergeRun, Carried.relay, Carried.places] using whole
    | control =>
      cases heading with
      | against =>
        refine ⟨x, ?_, .nil⟩
        simpa [Path.mergeRun, Carried.relay, Carried.places] using whole
      | along =>
        obtain ⟨a, hlead, hnest⟩ := ih
        have edge : g.adjacent c x = true := hn
        have nested := hnest.cons edge (h.apart h₀) hxt
        refine ⟨a, ?_, ?_⟩
        · simpa [Path.mergeRun, Carried.relay, Carried.places] using hlead
        · simpa [Path.mergeRun, Carried.relay, Carried.places] using nested

theorem Leads.length_mergeRun (h : g.Leads c₀ t₀ relays c t) :
    (Path.mergeRun t c relays.reverse).1.length = cabRun relays ∧
      (Path.mergeRun t c relays.reverse).2.length + (Path.mergeRun t c relays.reverse).1.length =
        relays.length := by
  induction h with
  | start => exact ⟨rfl, rfl⟩
  | @hop relays c t x carried heading _ _ _ _ ih =>
    rw [List.reverse_append, cabRun_concat]
    cases carried with
    | target => simp [Path.mergeRun, Carried.relay, Carried.places, Move.isCab]
    | control =>
      cases heading with
      | against => simp [Path.mergeRun, Carried.relay, Carried.places, Move.isCab]
      | along =>
        obtain ⟨hrun, hall⟩ := ih
        constructor
        · simpa [Path.mergeRun, Carried.relay, Carried.places, Move.isCab] using hrun
        · simp [Path.mergeRun, Carried.relay, Carried.places]
          omega

def Routes (g : Graph) (c₀ t₀ : Qubit) (p : Path) : Prop :=
  ∃ relays core c t, g.Leads c₀ t₀ relays c t ∧ Path.Core g c t core ∧ p = relays ++ core

def offered (p : Path) : List Path := p :: p.mergeRelays?.toList

theorem mem_offered {p q : Path} : q ∈ offered p ↔ q = p ∨ p.mergeRelays? = some q := by
  simp [offered]

/-- What the search for the cheapest path chooses from: the paths of the search in the order of
their discovery, each followed by its rewriting with merged relays. -/
def candidates (g : Graph) (limit : Option Nat) (c t : Qubit) : List Path :=
  (g.enumerate limit c t).flatMap offered

theorem Leads.routes {last : Move} (h : g.Leads c₀ t₀ relays c t)
    (hlast : g.terminal? c t = some last) : g.Routes c₀ t₀ (relays ++ [last]) := by
  refine ⟨relays, [last], c, t, h, ?_, rfl⟩
  rcases terminal?_eq_some hlast with ⟨edge, rfl⟩ | ⟨edge, rfl⟩
  · exact .native edge
  · exact .reversed edge

theorem Leads.of_mergeRelays {last : Move} {merged : Path} (h : g.Leads c₀ t₀ relays c t)
    (h₀ : c₀ ≠ t₀) (hlast : g.terminal? c t = some last)
    (hm : Path.mergeRelays? (relays ++ [last]) = some merged) :
    ∃ a before run, merged = before ++ run ∧ g.Leads c₀ t₀ before a t ∧ Path.Nested g t a c run ∧
      run ≠ [] ∧ g.adjacent c t = true ∧ run.length = cabRun relays ∧
      before.length + run.length = relays.length := by
  rcases terminal?_eq_some hlast with ⟨edge, rfl⟩ | ⟨edge, rfl⟩
  · obtain ⟨a, before, nested⟩ := h.mergeRun h₀
    obtain ⟨hrun, hall⟩ := h.length_mergeRun
    rw [Path.mergeRelays?, List.reverse_append] at hm
    rcases heq : Path.mergeRun t c relays.reverse with ⟨_ | ⟨m, run⟩, left⟩
    · simp [heq] at hm
    · rw [heq] at before nested hrun hall
      have hm : left.reverse ++ m :: run = merged := by simpa [heq] using hm
      refine ⟨a, left.reverse, m :: run, hm.symm, before, nested, by simp, edge, hrun, ?_⟩
      rw [List.length_reverse, ← hall]
  · simp [Path.mergeRelays?] at hm

theorem Leads.routes_merged {last : Move} {merged : Path} (h : g.Leads c₀ t₀ relays c t)
    (h₀ : c₀ ≠ t₀) (hlast : g.terminal? c t = some last)
    (hm : Path.mergeRelays? (relays ++ [last]) = some merged) : g.Routes c₀ t₀ merged := by
  obtain ⟨a, before, run, rfl, leads, nested, hne, edge, -, -⟩ := h.of_mergeRelays h₀ hlast hm
  exact ⟨before, run, a, t, leads, .nested hne nested edge, rfl⟩

theorem routes_of_mem_candidates {p : Path} (h : c ≠ t) (hc : c < g.size) (ht : t < g.size)
    (hp : p ∈ g.candidates limit c t) : g.Routes c t p := by
  obtain ⟨q, hq, hp⟩ := List.mem_flatMap.1 hp
  rw [enumerate_eq g limit h hc ht] at hq
  obtain ⟨s, last, hreach, hlast, rfl⟩ := mem_pathsFrom hq
  have leads := (reaches_invariant (start_invariant h hc ht) hreach).leads
  rcases mem_offered.1 hp with rfl | hm
  · exact leads.routes hlast
  · exact leads.routes_merged h hlast hm

theorem Leads.fits (h : g.Leads c₀ t₀ relays c t) : ∀ m ∈ relays, m.Fits g.size := by
  intro m hm
  obtain ⟨r, rfl, native, -⟩ := h.native m hm
  have apart := native.apart
  obtain ⟨hs, hd⟩ := native.lt
  constructor
  · simp [Move.qubits, apart]
  · simp [Move.qubits, hs, hd]

theorem Routes.fits {p : Path} (h : g.Routes c₀ t₀ p) : ∀ m ∈ p, m.Fits g.size := by
  obtain ⟨relays, core, c, t, leads, hcore, rfl⟩ := h
  intro m hm
  rcases List.mem_append.1 hm with hm | hm
  · exact leads.fits m hm
  · exact hcore.fits m hm

theorem Routes.gates_fit {p : Path} (h : g.Routes c₀ t₀ p) :
    ∀ gate ∈ p.complete.gates, gate.Fits g.size :=
  Path.gates_complete_fit h.fits

theorem Routes.run_gates {p : Path} (hM : Standard s matrix) (h : g.Routes c₀ t₀ p)
    (h₀ : c₀ ≠ t₀) : Wave.run matrix p.complete.gates = Wave.run matrix [.cnot c₀ t₀] := by
  obtain ⟨relays, core, c, t, leads, hcore, rfl⟩ := h
  rw [Path.gates_complete leads.isRelays hcore.terminals]
  exact leads.run_between hM h₀ (hcore.run_gates hM)

theorem on_device_of_mem {p : Path} (hp : p ∈ g.enumerate limit c t) :
    c ≠ t ∧ c < g.size ∧ t < g.size := by
  by_contra hout
  rw [enumerate_of_outside hout] at hp
  cases hp

/-- Each path of the search performs the CNOT that was asked for once its relays are undone, and so
does its rewriting with merged relays, however deep these nest. No other line is touched. -/
theorem enumerated_perform (hM : Standard s matrix) {p : Path}
    (hp : p ∈ g.enumerate limit c t) :
    ∀ q, q = p ∨ p.mergeRelays? = some q →
      (∀ gate ∈ q.complete.gates, gate.Fits g.size) ∧
      ActAlike matrix g.size q.complete.gates [.cnot c t] ∧
      ∀ ψ k, Wave.run matrix q.complete.gates ψ k =
        ψ (if k.testBit c then flipLine t k else k) := by
  intro q hq
  obtain ⟨h, hc, ht⟩ := on_device_of_mem hp
  have hmem : q ∈ g.candidates limit c t := List.mem_flatMap.2 ⟨p, hp, mem_offered.2 hq⟩
  have routes := routes_of_mem_candidates h hc ht hmem
  have hrun := routes.run_gates hM h
  have hcnot : ∀ gate ∈ [Gate.cnot c t], gate.Fits g.size :=
    List.forall_mem_singleton.2 (.cnot h hc ht)
  refine ⟨routes.gates_fit, .of_run_eq routes.gates_fit hcnot hrun, fun ψ k => ?_⟩
  rw [hrun]
  exact hM.act_cnot c t ψ k

/-- On a row of five qubits three control relays merge into a run that nests three deep. -/
theorem nested_perform_on_row :
    [.cab 0 1, .cab 1 2, .cab 2 3, .nop 3 4] ∈ (row 5).enumerate none 0 4 ∧
    Path.mergeRelays? [.cab 0 1, .cab 1 2, .cab 2 3, .nop 3 4] =
      some [.cnot3 2 3 4, .cnot3 1 2 4, .cnot3 0 1 4] ∧
    ActAlike GateKind.modular 5 (Path.complete [.cnot3 2 3 4, .cnot3 1 2 4, .cnot3 0 1 4]).gates
      [.cnot 0 4] := by
  have found : [.cab 0 1, .cab 1 2, .cab 2 3, .nop 3 4] ∈ (row 5).enumerate none 0 4 := by
    decide +kernel
  exact ⟨found, rfl, (enumerated_perform standard_modular found _ (Or.inr rfl)).2.1⟩

end Graph

end QubitRouting
