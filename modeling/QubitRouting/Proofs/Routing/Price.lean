import QubitRouting.Placement.Layout
import QubitRouting.Proofs.Routing.Replacement

/-!
How many gates routing adds. A router has a price for the CNOT of a pair; all other gates are free.
Where the replacement of each gate is as long as expected, the routed circuit is.
-/

namespace QubitRouting

namespace Gate

def cnot? (g : Gate) : Option (Control × Qubit) :=
  if g.isToffoli then g.interaction.toOption else none

variable {g : Gate} {control : Control} {target : Qubit}

theorem cnot?_eq_some_iff : g.cnot? = some (control, target) ↔
    g.isToffoli = true ∧ g.controls = [control] ∧ ∃ rest, g.targets = target :: rest := by
  rw [cnot?, ← interaction_eq_ok_iff]
  cases g.isToffoli with
  | false => simp
  | true => cases g.interaction <;> simp [Except.toOption]

/-- Of the NOTs with at most one control only those without any are not CNOTs. -/
theorem controls_of_cnot?_eq_none {n : Nat} (hfit : g.Fits n) (hnot : g.isToffoli = true)
    (hfew : g.controls.length ≤ 1) (h : g.cnot? = none) : g.controls = [] := by
  obtain ⟨target, rest, ht⟩ := List.exists_cons_of_ne_nil hfit.targets_ne
  by_contra hsome
  obtain ⟨control, hc⟩ : ∃ control, g.controls = [control] := by
    apply List.length_eq_one_iff.1
    have := List.length_pos_iff.2 hsome
    omega
  rw [cnot?_eq_some_iff.2 ⟨hnot, hc, rest, ht⟩] at h
  cases h

theorem cnot?_mapLines (f : Qubit → Qubit) (g : Gate) :
    (g.mapLines f).cnot? = g.cnot?.map fun (control, target) =>
      (⟨f control.line, control.positive⟩, f target) := by
  have hkind : (g.mapLines f).isToffoli = g.isToffoli := rfl
  rw [cnot?, cnot?, hkind]
  cases g.isToffoli with
  | false => rfl
  | true =>
    obtain ⟨kind, controls, targets⟩ := g
    rcases controls with _ | ⟨c, _ | ⟨d, controls⟩⟩ <;> rcases targets with _ | ⟨t, targets⟩ <;> rfl

def isNegated (g : Gate) : Bool := g.cnot?.any fun (control, _) => !control.positive

end Gate

theorem Control.length_wrap (control : Control) (gates : List Gate) :
    (control.wrap gates).length = gates.length + 2 * (!control.positive).toNat := by
  rw [wrap]
  cases control.positive with
  | true => rfl
  | false => simp

namespace Router

variable {r : Router} {v w : Qubit}

theorem price_of_pairCost {cost : Nat} (h : r.pairCost v w = some cost) : r.price v w = cost := by
  rw [price, h, Option.getD_some]

theorem price_lt (h : ∀ cost ∈ r.pairCost v w, cost < wordBound) : r.price v w < wordBound := by
  rw [price]
  cases hcost : r.pairCost v w with
  | none => exact Nat.sub_lt (Nat.two_pow_pos 32) Nat.one_pos
  | some cost => exact h cost hcost

def charge (r : Router) (g : Gate) : Nat :=
  match g.cnot? with
  | some (control, target) => r.price control.line target
  | none => 0

end Router

namespace Circuit

variable {c : Circuit} {size : Nat} {f : Gate → Except RoutingError (List Gate)}
  {less more : Gate → Nat}

theorem length_flatten_parts {gates : List Gate} {parts : List (List Gate)}
    (h : List.Forall₂ (fun g part => part.length + less g = 1 + more g) gates parts) :
    parts.flatten.length + (gates.map less).sum = gates.length + (gates.map more).sum := by
  induction h with
  | nil => rfl
  | cons here _ ih =>
    simp only [List.flatten_cons, List.length_append, List.map_cons, List.sum_cons,
      List.length_cons]
    omega

/-- A routed circuit has the gates that its parts have: one for each gate that was routed, with what
is added and without what is saved. -/
theorem routeBy_length (hl : c.lines ≤ size)
    (h : ∀ g ∈ c.gates, ∃ part, f g = .ok part ∧ (∀ x ∈ part, x.Fits size) ∧
      part.length + less g = 1 + more g) :
    ∃ out, c.routeBy size f = .ok out ∧ out.skipped = none ∧
      out.gateCount + (c.gates.map less).sum = c.gateCount + (c.gates.map more).sum := by
  have hparts : ∀ g ∈ c.gates, ∃ part, replacement size f g = .ok part ∧
      (∀ x ∈ part, x.Fits size) ∧ part.length + less g = 1 + more g := by
    intro g hg
    obtain ⟨part, hf, hfit, hlength⟩ := h g hg
    exact ⟨part, replacement_ok hf hfit, hfit, hlength⟩
  obtain ⟨parts, hmap, hall⟩ := mapM_ok_of_forall hparts
  have fits : ∀ x ∈ parts.flatten, x.Fits size := by
    intro x hx
    obtain ⟨part, hpart, hx⟩ := List.mem_flatten.1 hx
    obtain ⟨g, hg, hreplaced⟩ := exists_of_mem_mapM hmap hpart
    exact (of_replacement hreplaced).2 x hx
  obtain ⟨out, hout, -, hcount, hskipped⟩ := routeBy_of_parts hl hmap fits
  refine ⟨out, hout, hskipped, ?_⟩
  rw [hcount]
  exact length_flatten_parts (hall.imp fun _ _ hpart => hpart.2)

end Circuit

end QubitRouting
