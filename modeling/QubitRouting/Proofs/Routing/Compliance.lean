import QubitRouting.Proofs.Cancellation.NormalForm
import QubitRouting.Proofs.Placement.Search
import QubitRouting.Proofs.Table.Native
import QubitRouting.Proofs.Template.Native

/-!
Routed circuits comply with the device. Whatever a router emits is native to the device and is
copied by the router itself, so routing a circuit again changes nothing; and so it is after a
cleaning, which only takes gates away, and for the circuit of a placement, which is a cleaned one.
-/

namespace QubitRouting

/-- All gates are allowed, and the router gives the circuit back. -/
structure Router.Complies (r : Router) (allowed : Gate → Prop) (c : Circuit) : Prop where
  allowed : ∀ gate ∈ c.gates, allowed gate
  again : ∃ out, r.route c = .ok out ∧ out.skipped = none ∧ out.circuit = c

namespace Circuit

variable {size : Nat} {f : Gate → Except RoutingError (List Gate)} {allowed : Gate → Prop}
  {c : Circuit} {out : RoutedCircuit}

structure Settled (size : Nat) (f : Gate → Except RoutingError (List Gate))
    (allowed : Gate → Prop) (c : Circuit) : Prop where
  lines : c.lines = size
  fits : ∀ gate ∈ c.gates, gate.Fits size
  allowed : ∀ gate ∈ c.gates, allowed gate
  copied : ∀ gate ∈ c.gates, f gate = .ok [gate]

theorem Settled.valid (h : c.Settled size f allowed) : c.Valid := by
  rw [Valid, h.lines]
  exact h.fits

theorem Settled.routeBy (h : c.Settled size f allowed) :
    ∃ out, c.routeBy size f = .ok out ∧ out.skipped = none ∧ out.circuit = c := by
  have hcopies : ∀ gate ∈ c.gates, replacement size f gate = .ok [gate] := by
    intro gate hgate
    have hfit : ∀ x ∈ [gate], x.Fits size := List.forall_mem_singleton.2 (h.fits gate hgate)
    exact replacement_ok (h.copied gate hgate) hfit
  have hsame : c.replaceGates size f = .ok c := by
    rw [replaceGates, mapM_eq_ok_map hcopies, ok_bind, ← List.flatMap_def, List.flatMap_singleton',
      ← h.lines]
    rfl
  refine ⟨⟨c, c.gateCount, c.depth, none⟩, ?_, rfl, rfl⟩
  rw [Circuit.routeBy, if_neg (by simp [h.lines]), hsame, ok_bind, RoutedCircuit.ofCircuit,
    depth?_of_fit h.valid]

theorem Settled.removeDuplicates (h : c.Settled size f allowed) :
    ∃ d, c.removeDuplicates = .ok d ∧ d.Settled size f allowed := by
  have hsub := (sublist_of_deletions (deletions_keptGates c.gates)).subset
  refine ⟨_, removeDuplicates_eq h.valid, h.lines, ?_, ?_, ?_⟩
  · exact fun gate hgate => h.fits gate (hsub hgate)
  · exact fun gate hgate => h.allowed gate (hsub hgate)
  · exact fun gate hgate => h.copied gate (hsub hgate)

theorem settled_of_routeBy (hl : c.lines ≤ size) (h : c.routeBy size f = .ok out)
    (hemit : ∀ gate ∈ c.gates, ∀ part, f gate = .ok part → ∀ x ∈ part, x.Fits size →
      allowed x ∧ f x = .ok [x]) : out.circuit.Settled size f allowed := by
  obtain ⟨hlines, hgates⟩ := of_routeBy hl h
  have hemitted : ∀ x ∈ out.circuit.gates, allowed x ∧ f x = .ok [x] := by
    intro x hx
    obtain ⟨hfit, gate, hgate, part, hf, hx⟩ := hgates x hx
    exact hemit gate hgate part hf x hx hfit
  exact ⟨hlines, fun x hx => (hgates x hx).1, fun x hx => (hemitted x hx).1,
    fun x hx => (hemitted x hx).2⟩

end Circuit

namespace Router

variable {r : Router} {allowed : Gate → Prop} {c : Circuit}
  {f : Gate → Except RoutingError (List Gate)}

/-- Every circuit that comes of routing the circuit, or of placing it, complies with the device, and
so it does when it is cleaned once more. -/
structure Delivers (r : Router) (allowed : Gate → Prop) (c : Circuit) : Prop where
  routed : ∀ out, r.route c = .ok out → out.skipped = none →
    r.Complies allowed out.circuit ∧
      ∃ d, out.circuit.removeDuplicates = .ok d ∧ r.Complies allowed d
  placed : ∀ s p, searchPlacement c r s = .ok (.placed p) →
    r.Complies allowed p.routed.circuit ∧
      ∃ d, p.routed.circuit.removeDuplicates = .ok d ∧ r.Complies allowed d

theorem complies_of_settled (hr : r.route = fun c => c.routeBy r.size f)
    (h : c.Settled r.size f allowed) : r.Complies allowed c := by
  refine ⟨h.allowed, ?_⟩
  rw [hr]
  exact h.routeBy

theorem complies_throughout (hr : r.route = fun c => c.routeBy r.size f)
    (h : c.Settled r.size f allowed) :
    r.Complies allowed c ∧ ∃ d, c.removeDuplicates = .ok d ∧ r.Complies allowed d := by
  obtain ⟨d, hd, hsettled⟩ := h.removeDuplicates
  exact ⟨complies_of_settled hr h, d, hd, complies_of_settled hr hsettled⟩

/-- It is enough that of every gate that is accepted the router emits gates that are allowed and
copied. -/
theorem delivers_of_emission {accepted : Gate → Prop} (hr : r.route = fun c => c.routeBy r.size f)
    (hmoved : ∀ gate lines, accepted gate → accepted (gate.mapLines lines))
    (hemit : ∀ gate part, gate.Fits r.size → accepted gate → f gate = .ok part →
      ∀ x ∈ part, x.Fits r.size → allowed x ∧ f x = .ok [x])
    (hv : c.Valid) (hc : ∀ gate ∈ c.gates, accepted gate) : r.Delivers allowed c := by
  constructor
  · intro out hout hskipped
    rw [hr] at hout
    have hl : c.lines ≤ r.size := by
      by_contra hlong
      simp only [Circuit.routeBy, Nat.lt_of_not_le hlong, if_true] at hout
      rw [(RoutedCircuit.circuit_of_ofCircuit hout).2] at hskipped
      cases hskipped
    apply complies_throughout hr
    apply Circuit.settled_of_routeBy hl hout
    intro gate hgate part hpart
    exact hemit gate part ((hv gate hgate).mono hl) (hc gate hgate) hpart
  · intro s p hp
    obtain ⟨layout, moved, out, hmove, hout, hclean⟩ := of_searchPlacement hp
    obtain ⟨hlines, hgates⟩ := Layout.of_apply hmove
    rw [hr] at hout
    have settled : out.circuit.Settled r.size f allowed := by
      apply Circuit.settled_of_routeBy hlines.le hout
      intro x hx part hpart
      obtain ⟨hfit, gate, hgate, lines, rfl⟩ := hgates x hx
      exact hemit _ part hfit (hmoved gate lines (hc gate hgate)) hpart
    obtain ⟨d, hd, hsettled⟩ := settled.removeDuplicates
    obtain rfl := Except.ok.inj (hclean.symm.trans hd)
    exact complies_throughout hr hsettled

end Router

/-- Circuits whose NOTs and square roots of NOT with one control have one target leave both routers,
and the search for a placement over either, native to the device and as the router would leave them;
fixed templates leave no controlled root. -/
theorem routers_deliver {c : Circuit} (hv : c.Valid)
    (hone : ∀ gate ∈ c.gates, gate.isRewritten = true → gate.controls.length = 1 →
      gate.targets.length = 1) :
    (∀ g limit t, RoutingTable.build g limit = .ok t → t.router.Delivers (Gate.Native g) c) ∧
    (∀ name g m variant, MethodMatrix.ofGraph name g = .ok m →
      (m.router variant).Delivers (fun gate => gate.Native g ∧ gate.Rootless) c) := by
  have hmoved : ∀ (gate : Gate) (lines : Qubit → Qubit),
      (gate.isRewritten = true → gate.controls.length = 1 → gate.targets.length = 1) →
      (gate.mapLines lines).isRewritten = true → (gate.mapLines lines).controls.length = 1 →
      (gate.mapLines lines).targets.length = 1 := by
    intro gate lines h hkind hc
    simp only [Gate.mapLines, List.length_map] at hc ⊢
    exact h hkind hc
  constructor
  · intro g limit t ht
    refine Router.delivers_of_emission (f := t.routeGate) rfl hmoved ?_ hv hone
    intro gate part hfit hgate hpart x hx hxfit
    rcases RoutingTable.elementary_or_copied ht hfit hpart hx with h | ⟨rfl, rfl, h⟩
    · exact ⟨h.native, RoutingTable.routeGate_of_elementary ht hxfit h⟩
    · refine ⟨h.native fun hcnot => ?_, hpart⟩
      obtain ⟨hnot, hc⟩ := Gate.isCnot_iff.1 hcnot
      exact hgate (Gate.isRewritten_of_isToffoli hnot) hc
  · intro name g m variant hm
    refine Router.delivers_of_emission (f := m.routeGate variant) rfl hmoved ?_ hv hone
    intro gate part hfit hgate hpart x hx hxfit
    rcases MethodMatrix.elementary_or_copied hm hfit hpart hx with h | ⟨rfl, rfl, h⟩
    · exact ⟨⟨h.native, h.rootless⟩, MethodMatrix.routeGate_of_elementary hm hxfit h⟩
    · refine ⟨⟨?_, ?_⟩, hpart⟩
      · intro hnot
        rw [Gate.isRewritten_of_isToffoli hnot] at h
        cases h
      · intro adjoint hkind
        rw [Gate.isRewritten, hkind] at h
        cases h

def controlledPair : Circuit where
  name := "pair"
  lines := 3
  gates := [.toffoli [⟨0, false⟩] 2, ⟨.v true, [⟨2, false⟩], [1]⟩]

def relayedPair : List Gate :=
  [.not 0, .cnot 0 1, .cnot 1 2, .cnot 0 1, .cnot 1 2, .not 0, ⟨.v true, [⟨2, false⟩], [1]⟩]

def decomposedPair : List Gate :=
  [.not 0, .cnot 0 2, .not 0, .not 2, .hadamard 1, .quarter true 1, .quarter true 2, .cnot 1 2,
    .quarter false 2, .cnot 1 2, .hadamard 1, .not 2]

/-- The pair is routed and placed on a row of three qubits, where its NOT is relayed, and routed on
the star, where its root is decomposed. -/
theorem routers_deliver_pair :
    (∃ t out p, RoutingTable.build (.row 3) none = .ok t ∧ t.route controlledPair = .ok out ∧
      out.circuit.gates = relayedPair ∧
      t.router.Complies (Gate.Native (.row 3)) out.circuit ∧
      searchPlacement controlledPair t.router .default = .ok (.placed p) ∧
      t.router.Complies (Gate.Native (.row 3)) p.routed.circuit) ∧
    ∃ m out, MethodMatrix.ofGraph "star" MethodMatrix.star = .ok m ∧
      m.route .swap controlledPair = .ok out ∧ out.circuit.gates = decomposedPair ∧
      (m.router .swap).Complies (fun gate => gate.Native MethodMatrix.star ∧ gate.Rootless)
        out.circuit := by
  have delivers := routers_deliver (c := controlledPair) (by decide) (by decide)
  constructor
  · have hrun : ((do
        let t ← RoutingTable.build (.row 3) none
        let out ← t.route controlledPair
        let placed ← searchPlacement controlledPair t.router .default
        return (out.skipped = none && out.circuit.gates = relayedPair) && placed.isPlaced :
          Except RoutingError Bool)) = .ok true := by
      decide +kernel
    obtain ⟨t, ht, hrun⟩ := bind_eq_ok_iff.1 hrun
    obtain ⟨out, hout, hrun⟩ := bind_eq_ok_iff.1 hrun
    obtain ⟨outcome, houtcome, hrun⟩ := bind_eq_ok_iff.1 hrun
    obtain ⟨hrouted, hplaced⟩ := Bool.and_eq_true_iff.1 (Except.ok.inj hrun)
    obtain ⟨hskipped, hgates⟩ := Bool.and_eq_true_iff.1 hrouted
    have table := delivers.1 _ _ t ht
    cases outcome with
    | skipped => cases hplaced
    | placed p =>
      exact ⟨t, out, p, ht, hout, of_decide_eq_true hgates,
        (table.routed out hout (of_decide_eq_true hskipped)).1, houtcome,
        (table.placed _ p houtcome).1⟩
  · have hrun : ((do
        let m ← MethodMatrix.ofGraph "star" MethodMatrix.star
        let out ← m.route .swap controlledPair
        return out.skipped = none && out.circuit.gates = decomposedPair :
          Except RoutingError Bool)) = .ok true := by
      decide +kernel
    obtain ⟨m, hm, hrun⟩ := bind_eq_ok_iff.1 hrun
    obtain ⟨out, hout, hrun⟩ := bind_eq_ok_iff.1 hrun
    obtain ⟨hskipped, hgates⟩ := Bool.and_eq_true_iff.1 (Except.ok.inj hrun)
    have template := delivers.2 _ _ m .swap hm
    exact ⟨m, out, hm, hout, of_decide_eq_true hgates,
      (template.routed out hout (of_decide_eq_true hskipped)).1⟩

end QubitRouting
