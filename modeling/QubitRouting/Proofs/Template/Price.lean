import QubitRouting.Proofs.Routing.Price
import QubitRouting.Proofs.Template.Native

/-!
The costs of methods against their gates. A method adds as many gates as it costs, in both styles;
for the exchanges with the hub that is because of the edge that is left between them.
-/

namespace QubitRouting

theorem RelayMethod.cost_lt_wordBound (r : RelayMethod) (variant : Variant) :
    r.cost variant < wordBound := by
  cases r <;> cases variant <;> decide

namespace MethodMatrix

variable {name : String} {g : Graph} {m : MethodMatrix} {c t : Qubit} {r : RelayMethod}
  {gates : List Gate} {variant : Variant}

theorem method_of_adjacent (h : ofGraph name g = .ok m) (hc : c < templateSize)
    (ht : t < templateSize) (edge : g.adjacent c t = true) : m.method c t = .ok .direct := by
  rw [method, method?_of_ofGraph h hc ht, if_neg (Graph.ne_of_adjacent edge), classify?,
    if_pos edge]

theorem method_of_reversed (h : ofGraph name g = .ok m) (hc : c < templateSize)
    (ht : t < templateSize) (hn : g.adjacent c t = false) (edge : g.adjacent t c = true) :
    m.method c t = .ok .flipped := by
  have hne : c ≠ t := (Graph.ne_of_adjacent edge).symm
  rw [method, method?_of_ofGraph h hc ht, if_neg hne, classify?, if_neg (by simp [hn]), if_pos edge]

theorem length_hubTemplate (c t : Qubit) (r : RelayMethod) :
    (hubTemplate c t r).length = r.cost .template + 1 := by
  cases r <;> rfl

theorem length_swapGates (m : MethodMatrix) (q : Qubit) : (m.swapGates q).length = 7 := by
  rw [swapGates]
  split
  rfl

theorem length_edgeGates (hr : m.method c t = .ok r) (hg : m.edgeGates c t = .ok gates) :
    gates.length = r.cost variant + 1 := by
  rw [edgeGates, hr, ok_bind] at hg
  cases r with
  | direct =>
    obtain rfl := Except.ok.inj hg
    rfl
  | flipped =>
    obtain rfl := Except.ok.inj hg
    rfl
  | _ => cases hg

/-- Both edges are taken the wrong way round only where neither goes the right way. -/
theorem adjacent_hub_of_classify? (h : classify? g c t = some .backwardBackward) :
    g.adjacent hub t = false := by
  by_contra hedge
  rw [Bool.not_eq_false] at hedge
  unfold classify? at h
  simp only [hedge, if_true] at h
  split_ifs at h <;> cases h

theorem length_around (q : Qubit) (hr : m.method c t = .ok r) (hg : m.edgeGates c t = .ok gates) :
    (m.swapGates q ++ gates ++ m.swapGates q).length = 14 + r.cost .swap + 1 := by
  have hcore : gates.length = r.cost .swap + 1 := length_edgeGates hr hg
  rw [List.length_append, List.length_append, length_swapGates, hcore]
  omega

/-- Between two exchanges there is one CNOT, over a reversed edge where both edges of the hub are
the wrong way round. -/
theorem length_swapStyle (h : ofGraph name g = .ok m) (hc : c < templateSize)
    (ht : t < templateSize) (hr : classify? g c t = some r) (hrelay : r.isRelay = true)
    (hg : m.swapStyle r c t = .ok gates) : gates.length = r.cost .swap + 1 := by
  have hh : hub < templateSize := by decide
  have edges := edges_of_classify? hr
  cases r with
  | direct => cases hrelay
  | flipped => cases hrelay
  | forwardBackward =>
    obtain ⟨core, hcore, hg⟩ := bind_eq_ok_iff.1 hg
    obtain rfl := Except.ok.inj hg
    exact length_around t (method_of_adjacent h hc hh edges.1) hcore
  | forwardForward =>
    obtain ⟨core, hcore, hg⟩ := bind_eq_ok_iff.1 hg
    obtain rfl := Except.ok.inj hg
    exact length_around c (method_of_adjacent h hh ht edges.2) hcore
  | backwardForward =>
    obtain ⟨core, hcore, hg⟩ := bind_eq_ok_iff.1 hg
    obtain rfl := Except.ok.inj hg
    exact length_around c (method_of_adjacent h hh ht edges.2) hcore
  | backwardBackward =>
    obtain ⟨core, hcore, hg⟩ := bind_eq_ok_iff.1 hg
    obtain rfl := Except.ok.inj hg
    have hout := adjacent_hub_of_classify? hr
    exact length_around c (method_of_reversed h hh ht hout edges.2) hcore

theorem length_cnotGates (h : ofGraph name g = .ok m) (hct : c ≠ t) (hc : c < templateSize)
    (ht : t < templateSize) (hr : m.method? c t = some r)
    (hg : m.cnotGates variant c t = .ok gates) : gates.length = r.cost variant + 1 := by
  have hmethod : m.method c t = .ok r := by rw [method, hr]
  rw [cnotGates, hmethod, ok_bind] at hg
  cases variant with
  | template =>
    obtain rfl := Except.ok.inj hg
    exact length_hubTemplate c t r
  | swap =>
    cases hrelay : r.isRelay with
    | false =>
      simp only [hrelay, Bool.false_eq_true, if_false] at hg
      exact length_edgeGates hmethod hg
    | true =>
      simp only [hrelay, if_true] at hg
      rw [method?_of_ofGraph h hc ht, if_neg hct] at hr
      exact length_swapStyle h hc ht hr hrelay hg

theorem pairCost_of_method? (hr : m.method? c t = some r) :
    (m.router variant).pairCost c t = some (r.cost variant) := by
  change (m.method? c t).map (·.cost variant) = some (r.cost variant)
  rw [hr, Option.map_some]

theorem price_lt (m : MethodMatrix) (variant : Variant) (c t : Qubit) :
    (m.router variant).price c t < wordBound := by
  refine Router.price_lt fun cost hcost => ?_
  obtain ⟨r, -, rfl⟩ := Option.map_eq_some_iff.1 hcost
  exact r.cost_lt_wordBound variant

/-- Unless a gate is a root of NOT with controls, it is replaced by one gate and as many more as its
method costs; the two NOTs around a negative control are not charged. -/
theorem length_routeGate (h : ofGraph name g = .ok m) {gate : Gate} {part : List Gate}
    (hfit : gate.Fits templateSize) (hfew : gate.isToffoli = true → gate.controls.length ≤ 1)
    (hroot : gate.Rootless) (hpart : m.routeGate variant gate = .ok part) :
    part.length = 1 + ((m.router variant).charge gate + 2 * gate.isNegated.toNat) := by
  rw [routeGate_of_fits hfit] at hpart
  cases hpair : gate.cnot? with
  | none =>
    have hcopied : part = [gate] := by
      split_ifs at hpart with hnone
      · exact (Except.ok.inj hpart).symm
      · rw [List.isEmpty_iff] at hnone
        split at hpart
        · next hkind =>
          have hnot : gate.isToffoli = true := decide_eq_true hkind
          exact absurd (Gate.controls_of_cnot?_eq_none hfit hnot (hfew hnot) hpair) hnone
        · next adjoint hkind => exact absurd (hroot adjoint hkind) hnone
        · exact (Except.ok.inj hpart).symm
    simp [hcopied, Router.charge, Gate.isNegated, hpair]
  | some pair =>
    obtain ⟨control, target⟩ := pair
    obtain ⟨hnot, hc, rest, htargets⟩ := Gate.cnot?_eq_some_iff.1 hpair
    obtain ⟨hline, htarget, hne⟩ := hfit.pair hc htargets
    have hkind : gate.kind = .toffoli := of_decide_eq_true hnot
    have hinter : gate.interaction = .ok (control, target) :=
      Gate.interaction_eq_ok_iff.2 ⟨hc, rest, htargets⟩
    obtain ⟨r, hr, -⟩ := (sound_of_ofGraph h).exists_method hline htarget hne
    rw [if_neg (by simp [hc]), hkind] at hpart
    simp only [hinter, ok_bind] at hpart
    obtain ⟨gates, hgates, hpart⟩ := bind_eq_ok_iff.1 hpart
    obtain rfl := Except.ok.inj hpart
    have hlength := length_cnotGates h hne hline htarget hr hgates
    simp only [Router.charge, Gate.isNegated, hpair, Option.any_some]
    rw [Control.length_wrap, Router.price_of_pairCost (pairCost_of_method? hr), hlength]
    omega

end MethodMatrix

end QubitRouting
