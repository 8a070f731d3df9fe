import QubitRouting.Proofs.Relay.Native
import QubitRouting.Proofs.Table.Meaning

/-!
What a table emits is native to its device: the gates of a path, or a copy of the gate where it
needs no path. A gate that a table emits for a path is copied when it is routed again.
-/

namespace QubitRouting.RoutingTable

variable {g : Graph} {limit : Option Nat} {t : RoutingTable} {gate x : Gate} {part : List Gate}

theorem routeGate_of_elementary (ht : build g limit = .ok t) (hfit : x.Fits t.size)
    (h : x.Elementary g) : t.routeGate x = .ok [x] := by
  rcases h with h | ⟨a, b, rfl, hab⟩
  · have hfree : isControlledNot x = false := by simp [isControlledNot, h]
    rw [routeGate, if_pos (by simp [hfree])]
  · rw [routeGate_of_pair hfit rfl rfl rfl, build_graph ht]
    exact if_pos hab

/-- What replaces a gate is elementary, unless it is the gate itself, native for its first target.
-/
theorem elementary_or_copied (ht : build g limit = .ok t) (hfit : gate.Fits t.size)
    (h : t.routeGate gate = .ok part) (hx : x ∈ part) :
    x.Elementary g ∨ (part = [gate] ∧ x = gate ∧ gate.NativeFirst g) := by
  cases hcontrolled : isControlledNot gate with
  | false =>
    rw [routeGate, if_pos (by simp [hcontrolled])] at h
    obtain rfl := Except.ok.inj h
    refine .inr ⟨rfl, List.mem_singleton.1 hx, fun hnot => .inl ?_⟩
    simpa [isControlledNot, hnot] using hcontrolled
  | true =>
    have hgraph := build_graph ht
    obtain ⟨hnot, -⟩ := isControlledNot_iff.1 hcontrolled
    have hinteracts := h
    rw [routeGate, if_neg (by simp [hcontrolled])] at hinteracts
    obtain ⟨⟨control, target⟩, hinter, -⟩ := bind_eq_ok_iff.1 hinteracts
    obtain ⟨hc, rest, htargets⟩ := Gate.interaction_eq_ok_iff.1 hinter
    obtain ⟨hline, htarget, hne⟩ := hfit.pair hc htargets
    rw [routeGate_of_pair hfit hnot hc htargets, hgraph] at h
    rw [size, hgraph] at hline htarget
    cases hn : g.adjacent control.line target with
    | true =>
      simp only [hn, if_true] at h
      obtain rfl := Except.ok.inj h
      have first : gate.NativeFirst g :=
        fun _ => .inr ⟨control, target, rest, hc, htargets, hn⟩
      exact .inr ⟨rfl, List.mem_singleton.1 hx, first⟩
    | false =>
      obtain ⟨e, p, he, first, hpath⟩ := exists_choice ht hline htarget hne hn
      have routes := Graph.routes_of_mem_candidates hne hline htarget first.mem
      simp only [hn, Bool.false_eq_true, if_false, he] at h
      obtain rfl := Except.ok.inj h
      rw [hpath] at hx
      exact .inl (Gate.Elementary.wrap routes.elementary x hx)

end QubitRouting.RoutingTable
