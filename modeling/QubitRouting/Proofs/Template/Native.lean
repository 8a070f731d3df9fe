import QubitRouting.Proofs.Relay.Native
import QubitRouting.Proofs.Template.Meaning

/-!
The gates of the fixed templates are gates without controls and CNOTs on native edges. The method of
a pair says which edges the device has, and all CNOTs of its gates are on these edges. Routed again,
each of these gates is copied.
-/

namespace QubitRouting

def RelayMethod.Edges (g : Graph) (c t : Qubit) : RelayMethod → Prop
  | .direct => g.adjacent c t = true
  | .flipped => g.adjacent t c = true
  | .forwardForward => g.adjacent c hub = true ∧ g.adjacent hub t = true
  | .forwardBackward => g.adjacent c hub = true ∧ g.adjacent t hub = true
  | .backwardForward => g.adjacent hub c = true ∧ g.adjacent hub t = true
  | .backwardBackward => g.adjacent hub c = true ∧ g.adjacent t hub = true

theorem Gate.isRewritten_of_isToffoli {gate : Gate} (h : gate.isToffoli = true) :
    gate.isRewritten = true := by
  have hkind : gate.kind = .toffoli := of_decide_eq_true h
  rw [isRewritten, hkind]

namespace MethodMatrix

variable {name : String} {g : Graph} {m : MethodMatrix} {c t q : Qubit} {r : RelayMethod}
  {gates : List Gate} {variant : Variant}

theorem edges_of_classify? (h : classify? g c t = some r) : r.Edges g c t := by
  unfold classify? at h
  split_ifs at h
  all_goals
    obtain rfl := Option.some.inj h
    first
    | assumption
    | exact ⟨by assumption, by assumption⟩

theorem edges_of_method (h : ofGraph name g = .ok m) (hc : c < templateSize)
    (ht : t < templateSize) (hr : m.method c t = .ok r) : r.Edges g c t := by
  rw [method, method?_of_ofGraph h hc ht] at hr
  by_cases hct : c = t
  · simp [hct] at hr
  · rw [if_neg hct] at hr
    cases hclass : classify? g c t with
    | none => simp [hclass] at hr
    | some r' =>
      rw [hclass] at hr
      obtain rfl := Except.ok.inj hr
      exact edges_of_classify? hclass

theorem elementary_turned (h : g.adjacent t c = true) :
    ∀ gate ∈ turned c t, gate.Elementary g := by
  have turn := Gate.Elementary.hadamards g c t
  simp only [turned, List.forall_mem_append, List.forall_mem_singleton]
  exact ⟨⟨turn, .cnot h⟩, turn⟩

theorem elementary_hubTemplate (h : r.Edges g c t) :
    ∀ gate ∈ hubTemplate c t r, gate.Elementary g := by
  have turn := Gate.Elementary.hadamard g
  cases r with
  | direct => exact List.forall_mem_singleton.2 (.cnot h)
  | flipped => exact elementary_turned h
  | _ =>
    have first := Gate.Elementary.cnot h.1
    have second := Gate.Elementary.cnot h.2
    simp only [hubTemplate, List.forall_mem_cons, List.not_mem_nil, false_implies, implies_true,
      and_true]
    simp only [turn, first, second, and_self]

theorem elementary_edgeGates (h : ofGraph name g = .ok m) (hc : c < templateSize)
    (ht : t < templateSize) (hg : m.edgeGates c t = .ok gates) :
    ∀ gate ∈ gates, gate.Elementary g := by
  obtain ⟨r, hr, hg⟩ := bind_eq_ok_iff.1 hg
  have edges := edges_of_method h hc ht hr
  cases r with
  | direct =>
    obtain rfl := Except.ok.inj hg
    exact List.forall_mem_singleton.2 (.cnot edges)
  | flipped =>
    obtain rfl := Except.ok.inj hg
    exact elementary_turned edges
  | _ => cases hg

/-- The exchange with the hub uses the edge that the two share, in its direction. -/
theorem elementary_swapGates (h : ofGraph name g = .ok m) (hq : q < templateSize) (hhub : q ≠ hub) :
    ∀ gate ∈ m.swapGates q, gate.Elementary g := by
  have hh : hub < templateSize := by decide
  obtain ⟨r, hr?, hr⟩ := (sound_of_ofGraph h).exists_method hq hh hhub
  have edges := edges_of_method h hq hh hr
  have turn := Gate.Elementary.hadamard g
  have exchange : ∀ a b, g.adjacent a b = true → ∀ gate ∈
      [Gate.cnot a b, .hadamard a, .hadamard b, .cnot a b, .hadamard a, .hadamard b, .cnot a b],
      gate.Elementary g := by
    intro a b hab
    have edge := Gate.Elementary.cnot hab
    simp only [List.forall_mem_cons, List.not_mem_nil, false_implies, implies_true, and_true]
    simp only [turn, edge, and_self]
  unfold swapGates native
  rw [hr?]
  cases r with
  | direct => exact exchange q hub edges
  | flipped => exact exchange hub q edges
  | _ => cases (sound_of_ofGraph h).to_hub q hq _ hr?

theorem elementary_swapStyle (h : ofGraph name g = .ok m) (hc : c < templateSize)
    (ht : t < templateSize) (hch : c ≠ hub) (hth : t ≠ hub) (hg : m.swapStyle r c t = .ok gates) :
    ∀ gate ∈ gates, gate.Elementary g := by
  have hh : hub < templateSize := by decide
  have swapc := elementary_swapGates h hc hch
  have swapt := elementary_swapGates h ht hth
  unfold swapStyle at hg
  split at hg
  · obtain ⟨into, hinto, hg⟩ := bind_eq_ok_iff.1 hg
    obtain rfl := Except.ok.inj hg
    have core := elementary_edgeGates h hc hh hinto
    exact List.forall_mem_append.2 ⟨List.forall_mem_append.2 ⟨swapt, core⟩, swapt⟩
  · obtain ⟨out, hout, hg⟩ := bind_eq_ok_iff.1 hg
    obtain rfl := Except.ok.inj hg
    have core := elementary_edgeGates h hh ht hout
    exact List.forall_mem_append.2 ⟨List.forall_mem_append.2 ⟨swapc, core⟩, swapc⟩

theorem elementary_cnotGates (h : ofGraph name g = .ok m) (hct : c ≠ t) (hc : c < templateSize)
    (ht : t < templateSize) (hg : m.cnotGates variant c t = .ok gates) :
    ∀ gate ∈ gates, gate.Elementary g := by
  obtain ⟨r, hr?, hr⟩ := (sound_of_ofGraph h).exists_method hc ht hct
  rw [cnotGates, hr, ok_bind] at hg
  cases variant with
  | template =>
    obtain rfl := Except.ok.inj hg
    exact elementary_hubTemplate (edges_of_method h hc ht hr)
  | swap =>
    cases hrelay : r.isRelay with
    | false =>
      simp only [hrelay, Bool.false_eq_true, if_false] at hg
      exact elementary_edgeGates h hc ht hg
    | true =>
      simp only [hrelay, if_true] at hg
      obtain ⟨hch, hth⟩ := (sound_of_ofGraph h).apart_of_isRelay hc ht hr? hrelay
      exact elementary_swapStyle h hc ht hch hth hg

theorem elementary_aroundCnots {cnots : List Gate} (h : ∀ gate ∈ cnots, gate.Elementary g)
    (adjoint : Bool) (t x y : Qubit) :
    ∀ gate ∈ [Gate.hadamard t, .quarter adjoint x, .quarter adjoint y] ++ cnots ++
      [.quarter (!adjoint) y] ++ cnots ++ [.hadamard t], gate.Elementary g := by
  have turn := Gate.Elementary.hadamard g t
  have quarter : ∀ adjoint q, (Gate.quarter adjoint q).Elementary g := fun _ _ => .inl rfl
  simp only [List.forall_mem_append, List.forall_mem_cons, List.not_mem_nil, false_implies,
    implies_true, and_true]
  simp only [turn, quarter, and_true, true_and]
  exact ⟨h, h⟩

theorem elementary_rootGates (h : ofGraph name g = .ok m) (hct : c ≠ t) (hc : c < templateSize)
    (ht : t < templateSize) {adjoint : Bool} (hg : m.rootGates variant adjoint c t = .ok gates) :
    ∀ gate ∈ gates, gate.Elementary g := by
  obtain ⟨forth, -, hg⟩ := bind_eq_ok_iff.1 hg
  obtain ⟨back, -, hg⟩ := bind_eq_ok_iff.1 hg
  by_cases hle : forth.cost variant ≤ back.cost variant
  · simp only [hle, if_true] at hg
    obtain ⟨cnots, hcnots, hg⟩ := bind_eq_ok_iff.1 hg
    obtain rfl := Except.ok.inj hg
    exact elementary_aroundCnots (elementary_cnotGates h hct hc ht hcnots) adjoint t c t
  · simp only [hle, if_false] at hg
    obtain ⟨cnots, hcnots, hg⟩ := bind_eq_ok_iff.1 hg
    obtain rfl := Except.ok.inj hg
    exact elementary_aroundCnots (elementary_cnotGates h hct.symm ht hc hcnots) adjoint t t c

section Emission

variable {gate x : Gate} {part : List Gate}

theorem routeGate_of_elementary (h : ofGraph name g = .ok m) (hfit : x.Fits templateSize)
    (hx : x.Elementary g) : m.routeGate variant x = .ok [x] := by
  rw [routeGate_of_fits hfit]
  rcases hx with hx | ⟨a, b, rfl, hab⟩
  · rw [if_pos (by simp [hx])]
  · obtain ⟨ha, hb, hne⟩ := hfit.pair rfl rfl
    have hmethod : m.method a b = .ok .direct := by
      rw [method, method?_of_ofGraph h ha hb, if_neg hne, classify?, if_pos hab]
    have hcnots : m.cnotGates variant a b = .ok [.cnot a b] := by
      rw [cnotGates, hmethod, ok_bind]
      cases variant with
      | template => rfl
      | swap =>
        change m.edgeGates a b = _
        rw [edgeGates, hmethod]
        rfl
    change (do return Control.wrap ⟨a, true⟩ (← m.cnotGates variant a b)) = _
    rw [hcnots]
    rfl

/-- The gates for the first pair of a gate, with the control made positive. -/
theorem elementary_of_emit {emit : Qubit → Qubit → Except RoutingError (List Gate)}
    (hfit : gate.Fits templateSize)
    (hemit : ∀ c t gates, c ≠ t → c < templateSize → t < templateSize → emit c t = .ok gates →
      ∀ gate ∈ gates, gate.Elementary g)
    (hpart : (do
      let (control, target) ← gate.interaction
      return control.wrap (← emit control.line target)) = .ok part) :
    ∀ x ∈ part, x.Elementary g := by
  obtain ⟨⟨control, target⟩, hinter, hpart⟩ := bind_eq_ok_iff.1 hpart
  obtain ⟨gates, hgates, hpart⟩ := bind_eq_ok_iff.1 hpart
  obtain rfl := Except.ok.inj hpart
  obtain ⟨hc, rest, ht⟩ := Gate.interaction_eq_ok_iff.1 hinter
  obtain ⟨hline, htarget, hne⟩ := hfit.pair hc ht
  exact .wrap (hemit _ _ _ hne hline htarget hgates)

/-- What replaces a gate is elementary, unless it is the gate itself, of a kind that is copied. -/
theorem elementary_or_copied (h : ofGraph name g = .ok m) (hfit : gate.Fits templateSize)
    (hpart : m.routeGate variant gate = .ok part) (hx : x ∈ part) :
    x.Elementary g ∨ (part = [gate] ∧ x = gate ∧ gate.isRewritten = false) := by
  rw [routeGate_of_fits hfit] at hpart
  by_cases hnone : gate.controls.isEmpty = true
  · rw [if_pos hnone] at hpart
    obtain rfl := Except.ok.inj hpart
    obtain rfl := List.mem_singleton.1 hx
    exact .inl (.inl (List.isEmpty_iff.1 hnone))
  · rw [if_neg hnone] at hpart
    split at hpart
    · exact .inl (elementary_of_emit hfit
        (fun _ _ _ hne hc ht => elementary_cnotGates h hne hc ht) hpart x hx)
    · exact .inl (elementary_of_emit hfit
        (fun _ _ _ hne hc ht => elementary_rootGates h hne hc ht) hpart x hx)
    · next hnot hroot =>
      obtain rfl := Except.ok.inj hpart
      refine .inr ⟨rfl, List.mem_singleton.1 hx, ?_⟩
      unfold Gate.isRewritten
      split
      · exact absurd ‹_› hnot
      · exact absurd ‹_› (hroot _)
      · rfl

end Emission

end MethodMatrix

end QubitRouting
