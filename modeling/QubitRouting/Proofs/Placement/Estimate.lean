import Mathlib.Algebra.Order.BigOperators.Group.List
import QubitRouting.Proofs.Placement.Meaning
import QubitRouting.Proofs.Table.Price
import QubitRouting.Proofs.Template.Price

/-!
The estimate of a layout against the circuit that routing makes of it. The interactions with their
counts are the CNOTs of the circuit, so the estimate is the sum of what the router charges for the
gates that were moved, and the routed circuit has as many gates as that sum says.
-/

namespace QubitRouting

variable {c : Circuit} {l : Layout} {r : Router} {size : Nat}

namespace Router

theorem charge_mapLines (r : Router) (f : Qubit → Qubit) (g : Gate) :
    r.charge (g.mapLines f) = g.pair?.elim 0 fun pair => r.price (f pair.1) (f pair.2) := by
  rw [charge, Gate.cnot?_mapLines, Gate.pair?]
  cases g.cnot? <;> rfl

theorem charge_lt (h : ∀ v w, r.price v w < wordBound) (g : Gate) : r.charge g < wordBound := by
  rw [charge]
  cases g.cnot? with
  | none => exact Nat.two_pow_pos 32
  | some pair => exact h _ _

/-- Fewer gates than words, each charged with a word, do not reach the largest estimate. -/
theorem sum_charge_le (h : ∀ v w, r.price v w < wordBound) {gates : List Gate}
    (hfew : gates.length < wordBound) : (gates.map r.charge).sum ≤ maxEstimate := by
  have hle : (gates.map r.charge).sum ≤ (gates.map r.charge).length • (wordBound - 1) := by
    apply List.sum_le_card_nsmul
    intro charge hcharge
    obtain ⟨g, -, rfl⟩ := List.mem_map.1 hcharge
    exact Nat.le_pred_of_lt (charge_lt h g)
  rw [List.length_map, smul_eq_mul] at hle
  have hmost : gates.length * (wordBound - 1) ≤ (wordBound - 1) * (wordBound - 1) :=
    Nat.mul_le_mul_right _ (Nat.le_pred_of_lt hfew)
  exact hle.trans (hmost.trans (by decide))

end Router

namespace Layout

theorem interactionPrice_eq {lines control target : Nat} (hl : l.Covers lines size)
    (hc : control < lines) (ht : target < lines) (n : Nat) :
    l.interactionPrice r (control, target, n) =
      n * r.price (imageOf l.images control) (imageOf l.images target) := by
  rw [interactionPrice, physical?, physical?, getElem?_imageOf (Nat.lt_of_lt_of_le hc hl.long),
    getElem?_imageOf (Nat.lt_of_lt_of_le ht hl.long)]

theorem estimate_eq (hl : l.Covers c.lines size) (hv : c.Valid) (hfew : c.gateCount < wordBound)
    (hprice : ∀ v w, r.price v w < wordBound) :
    ∃ h, Histogram.ofCircuit? c = some h ∧
      l.estimate h r = ((l.relocated c size).gates.map r.charge).sum := by
  refine ⟨_, Histogram.ofCircuit?_eq hv, ?_⟩
  have inside := Histogram.inside_of_valid hv
  let price : Qubit × Qubit → Nat := fun pair =>
    r.price (imageOf l.images pair.1) (imageOf l.images pair.2)
  have hprices : ∀ i ∈ Histogram.interactions ⟨c.lines, c.gates.filterMap Gate.pair?⟩,
      l.interactionPrice r i = i.2.2 * price (i.1, i.2.1) := by
    rintro ⟨control, target, n⟩ hmem
    obtain ⟨hpair, -⟩ := (Histogram.mem_interactions inside).1 hmem
    obtain ⟨hc, ht⟩ := inside _ hpair
    exact interactionPrice_eq hl hc ht n
  have hcharges : ∀ g ∈ c.gates,
      g.pair?.elim 0 price = (r.charge ∘ Gate.mapLines (imageOf l.images)) g :=
    fun g _ => (r.charge_mapLines _ g).symm
  have hbound : ((l.relocated c size).gates.map r.charge).sum ≤ maxEstimate :=
    Router.sum_charge_le hprice (by rwa [relocated, List.length_map])
  rw [estimate, estimateOf, foldl_saturating _ _ (Nat.zero_le _), Nat.zero_add,
    List.map_congr_left hprices, Histogram.sum_interactions inside price, sum_filterMap,
    List.map_congr_left hcharges, ← List.map_map]
  exact Nat.min_eq_right hbound

structure Routes (l : Layout) (r : Router) (c : Circuit) (h : Histogram) (moved : Circuit)
    (out : RoutedCircuit) : Prop where
  counted : Histogram.ofCircuit? c = some h
  applied : l.apply c r.size = .ok moved
  routed : r.route moved = .ok out
  unskipped : out.skipped = none

/-- Where each moved gate is replaced by one gate and as many more as the router charges, the routed
circuit has as many gates as the circuit and the estimate together. -/
theorem exists_routes {f : Gate → Except RoutingError (List Gate)} {less more : Gate → Nat}
    (hroute : ∀ c : Circuit, r.route c = c.routeBy r.size f) (hl : l.Covers c.lines r.size)
    (hv : c.Valid) (hfew : c.gateCount < wordBound) (hsize : r.size < wordBound)
    (hprice : ∀ v w, r.price v w < wordBound)
    (hparts : ∀ x ∈ (l.relocated c r.size).gates, ∃ part, f x = .ok part ∧
      (∀ y ∈ part, y.Fits r.size) ∧ part.length + less x = 1 + (r.charge x + more x)) :
    ∃ h moved out, l.Routes r c h moved out ∧
      moved.gates = c.gates.map (Gate.mapLines (imageOf l.images)) ∧
      out.gateCount + (moved.gates.map less).sum =
        c.gateCount + l.estimate h r + (moved.gates.map more).sum := by
  obtain ⟨h, hh, hestimate⟩ := estimate_eq hl hv hfew hprice
  obtain ⟨out, hout, hskipped, hlength⟩ := Circuit.routeBy_length (Nat.le_refl _) hparts
  have hgates : (l.relocated c r.size).gateCount = c.gateCount := List.length_map _
  refine ⟨h, l.relocated c r.size, out, ?_, rfl, ?_⟩
  · exact ⟨hh, apply_ok hl hv hsize, (hroute _).trans hout, hskipped⟩
  · rw [hlength, hestimate, List.sum_map_add, hgates, Nat.add_assoc]

end Layout

/-- A NOT has at most one control, and only one target if it has one. -/
structure Gate.Plain (g : Gate) : Prop where
  few : g.isToffoli = true → g.controls.length ≤ 1
  single : g.isCnot = true → g.targets.length = 1

instance (g : Gate) : Decidable g.Plain :=
  decidable_of_iff ((g.isToffoli = true → g.controls.length ≤ 1) ∧
    (g.isCnot = true → g.targets.length = 1)) ⟨fun h => ⟨h.1, h.2⟩, fun h => ⟨h.few, h.single⟩⟩

namespace Gate

variable {g : Gate}

theorem Plain.mapLines (h : g.Plain) (f : Qubit → Qubit) : (g.mapLines f).Plain := by
  constructor
  · intro hnot
    rw [Gate.mapLines, List.length_map]
    exact h.few hnot
  · intro hcnot
    obtain ⟨hnot, hone⟩ := isCnot_iff.1 hcnot
    rw [Gate.mapLines, List.length_map] at hone ⊢
    exact h.single (isCnot_iff.2 ⟨hnot, hone⟩)

theorem Rootless.mapLines (h : g.Rootless) (f : Qubit → Qubit) : (g.mapLines f).Rootless := by
  intro adjoint hkind
  rw [Gate.mapLines, h adjoint hkind, List.map_nil]

theorem isNegated_mapLines (f : Qubit → Qubit) (g : Gate) :
    (g.mapLines f).isNegated = g.isNegated := by
  rw [isNegated, cnot?_mapLines, isNegated, Option.any_map]

/-- A plain gate that is no root of NOT under controls can be rewritten by the fixed templates. -/
theorem Plain.rewritable (h : g.Plain) (hroot : g.Rootless) (hkind : g.isRewritten = true) :
    g.controls.length ≤ 1 ∧ (g.controls.length = 1 → g.targets.length = 1) := by
  unfold isRewritten at hkind
  split at hkind
  · next hnot =>
    have hnot : g.isToffoli = true := decide_eq_true hnot
    exact ⟨h.few hnot, fun hone => h.single (isCnot_iff.2 ⟨hnot, hone⟩)⟩
  · next adjoint hv =>
    rw [hroot adjoint hv]
    exact ⟨Nat.zero_le 1, fun hone => absurd hone Nat.zero_ne_one⟩
  · cases hkind

end Gate

namespace Layout

variable (hv : c.Valid) (hfew : c.gateCount < wordBound) (hplain : ∀ gate ∈ c.gates, gate.Plain)
include hv hfew hplain

/-- Over a table the two NOTs around a negative control are not in the estimate, and six gates of it
are saved where two relays nest. -/
theorem exists_routes_table {g : Graph} {limit : Option Nat} {t : RoutingTable}
    (hg : Graph.countable g.size = true) (ht : RoutingTable.build g limit = .ok t)
    (hl : l.Covers c.lines t.size) :
    ∃ h moved out, l.Routes t.router c h moved out ∧
      out.gateCount + 6 * moved.gates.countP t.nests =
        c.gateCount + l.estimate h t.router + 2 * moved.gates.countP t.wraps := by
  have hsize : t.size < wordBound := by
    rw [RoutingTable.size, RoutingTable.build_graph ht]
    exact Graph.lt_of_countable hg
  have hparts : ∀ x ∈ (l.relocated c t.size).gates, ∃ part, t.routeGate x = .ok part ∧
      (∀ y ∈ part, y.Fits t.size) ∧ part.length + 6 * (t.nests x).toNat =
        1 + (t.router.charge x + 2 * (t.wraps x).toNat) := by
    intro x hx
    have hfit := valid_relocated hl hv x hx
    obtain ⟨gate, hgate, rfl⟩ := List.mem_map.1 hx
    have plain := (hplain gate hgate).mapLines (imageOf l.images)
    obtain ⟨part, hpart, hreplaces⟩ :=
      RoutingTable.routeGate_replaces standard_modular ht hfit plain.single plain.few
    exact ⟨part, hpart, hreplaces.1, RoutingTable.length_routeGate ht hfit plain.few hpart⟩
  obtain ⟨h, moved, out, routes, -, hcount⟩ :=
    exists_routes (r := t.router) (fun _ => rfl) hl hv hfew hsize (RoutingTable.price_lt ht) hparts
  rw [sum_toNat, sum_toNat] at hcount
  exact ⟨h, moved, out, routes, hcount⟩

/-- By methods each CNOT takes one gate and its cost, so only the two NOTs around a negative control
are not in the estimate. -/
theorem exists_routes_methods {name : String} {g : Graph} {m : MethodMatrix}
    (hm : MethodMatrix.ofGraph name g = .ok m) (variant : Variant)
    (hl : l.Covers c.lines templateSize) (hroot : ∀ gate ∈ c.gates, gate.Rootless) :
    ∃ h moved out, l.Routes (m.router variant) c h moved out ∧
      out.gateCount =
        c.gateCount + l.estimate h (m.router variant) + 2 * c.gates.countP Gate.isNegated := by
  have sound := MethodMatrix.sound_of_ofGraph hm
  have hsize : templateSize < wordBound := by decide
  have hparts : ∀ x ∈ (l.relocated c templateSize).gates,
      ∃ part, m.routeGate variant x = .ok part ∧ (∀ y ∈ part, y.Fits templateSize) ∧
        part.length + 0 = 1 + ((m.router variant).charge x + 2 * x.isNegated.toNat) := by
    intro x hx
    have hfit := valid_relocated hl hv x hx
    obtain ⟨gate, hgate, rfl⟩ := List.mem_map.1 hx
    have plain := (hplain gate hgate).mapLines (imageOf l.images)
    have rootless := (hroot gate hgate).mapLines (imageOf l.images)
    have hreplaced : ∃ part, m.routeGate variant (gate.mapLines (imageOf l.images)) = .ok part ∧
        Circuit.Replaces GateKind.modular templateSize _ part :=
      MethodMatrix.routeGate_replaces rooted_modular sound hfit
        (fun hkind => (plain.rewritable rootless hkind).2)
        (fun hkind => (plain.rewritable rootless hkind).1)
    obtain ⟨part, hpart, hreplaces⟩ := hreplaced
    exact ⟨part, hpart, hreplaces.1,
      MethodMatrix.length_routeGate hm hfit plain.few rootless hpart⟩
  obtain ⟨h, moved, out, routes, hgates, hcount⟩ :=
    exists_routes (r := m.router variant) (fun _ => rfl) hl hv hfew hsize (m.price_lt variant)
      hparts
  have hnegated : Gate.isNegated ∘ Gate.mapLines (imageOf l.images) = Gate.isNegated :=
    funext (Gate.isNegated_mapLines _)
  have hnothing : (moved.gates.map fun _ => 0).sum = 0 := by simp
  rw [hnothing, Nat.add_zero, sum_toNat, hgates, List.countP_map, hnegated] at hcount
  exact ⟨h, moved, out, routes, hcount⟩

end Layout

/-- The estimate of a layout accounts for routing. Over a table, of any device that fits memory, it
is exceeded only by the two NOTs around each negative control whose pair is not native, and together
with these it is reached exactly when no path that is used holds two three-qubit relays. By the
methods of a graph, in both styles, it is exact but for the two NOTs around each negative control.
-/
theorem estimate_accounts_for_routing (hv : c.Valid) (hfew : c.gateCount < wordBound)
    (hplain : ∀ gate ∈ c.gates, gate.Plain) (l : Layout) :
    (∀ g limit t, Graph.countable g.size = true → RoutingTable.build g limit = .ok t →
      l.Covers c.lines t.size →
      ∃ h moved out, l.Routes t.router c h moved out ∧
        out.gateCount ≤
          c.gateCount + l.estimate h t.router + 2 * moved.gates.countP t.wraps ∧
        (out.gateCount =
            c.gateCount + l.estimate h t.router + 2 * moved.gates.countP t.wraps ↔
          ∀ gate ∈ moved.gates, t.nests gate = false)) ∧
    ∀ name g m variant, MethodMatrix.ofGraph name g = .ok m → l.Covers c.lines templateSize →
      (∀ gate ∈ c.gates, gate.Rootless) →
      ∃ h moved out, l.Routes (m.router variant) c h moved out ∧
        out.gateCount =
          c.gateCount + l.estimate h (m.router variant) + 2 * c.gates.countP Gate.isNegated := by
  constructor
  · intro g limit t hg ht hl
    obtain ⟨h, moved, out, routes, hcount⟩ := Layout.exists_routes_table hv hfew hplain hg ht hl
    have hnests : moved.gates.countP t.nests = 0 ↔ ∀ gate ∈ moved.gates, t.nests gate = false := by
      simp only [List.countP_eq_zero, Bool.not_eq_true]
    refine ⟨h, moved, out, routes, by omega, ?_⟩
    rw [← hnests]
    omega
  · intro name g m variant hm hl hroot
    exact Layout.exists_routes_methods hv hfew hplain hm variant hl hroot

def negatedEnds : Circuit where
  name := "ends"
  lines := 4
  gates := [.toffoli [⟨0, false⟩] 3, .hadamard 1]

/-- In place on a row of four qubits, where two relays nest and gates are saved, and on the star,
with the control on the last qubit and the target on the first. -/
theorem estimate_of_negatedEnds :
    (∃ t h moved out, RoutingTable.build (.row 4) none = .ok t ∧
      (Layout.trivial 4).Routes t.router negatedEnds h moved out ∧
      out.gateCount <
        2 + (Layout.trivial 4).estimate h t.router + 2 * moved.gates.countP t.wraps) ∧
    ∃ m h moved out, MethodMatrix.ofGraph "star" MethodMatrix.star = .ok m ∧
      (Layout.mk [4, 1, 3, 0]).Routes (m.router .swap) negatedEnds h moved out ∧
      out.gateCount = 2 + (Layout.mk [4, 1, 3, 0]).estimate h (m.router .swap) + 2 := by
  have accounts := estimate_accounts_for_routing (c := negatedEnds) (by decide) (by decide)
    (by decide)
  obtain ⟨t, ht⟩ := RoutingTable.exists_build_long_row
  have hsize : t.size = 4 := congrArg Graph.size (RoutingTable.build_graph ht)
  have inPlace : (Layout.trivial 4).Covers negatedEnds.lines t.size := by
    rw [hsize]
    exact ⟨by decide, by decide, by decide⟩
  obtain ⟨h, moved, out, routes, hle, hexact⟩ := (accounts _).1 _ _ t (by decide) ht inPlace
  have hnests : t.nests (.toffoli [⟨0, false⟩] 3) = true := by
    have hrow : (RoutingTable.build (.row 4) none).toOption.map
        (fun t => t.nests (.toffoli [⟨0, false⟩] 3)) = some true := by decide +kernel
    rw [ht] at hrow
    exact Option.some.inj hrow
  have hmem : Gate.toffoli [⟨0, false⟩] 3 ∈ moved.gates := by
    have happlied := routes.applied
    change (Layout.trivial 4).apply negatedEnds t.size = .ok moved at happlied
    rw [hsize] at happlied
    obtain rfl := Except.ok.inj happlied
    decide
  have hsaved := fun heq => Bool.false_ne_true ((hexact.1 heq _ hmem).symm.trans hnests)
  have across : (Layout.mk [4, 1, 3, 0]).Covers negatedEnds.lines templateSize :=
    ⟨by decide, by decide, by decide⟩
  have hstar : (MethodMatrix.ofGraph "star" MethodMatrix.star).isOk = true := by decide +kernel
  obtain ⟨m, hm⟩ := isOk_iff.1 hstar
  obtain ⟨h', moved', out', routes', hcount⟩ :=
    (accounts _).2 _ _ m .swap hm across (by decide)
  exact ⟨⟨t, h, moved, out, ht, routes, Nat.lt_of_le_of_ne hle hsaved⟩, m, h', moved', out', hm,
    routes', hcount⟩

end QubitRouting
