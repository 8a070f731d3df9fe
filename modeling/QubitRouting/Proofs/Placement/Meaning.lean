import QubitRouting.Proofs.Cancellation.Meaning
import QubitRouting.Proofs.Device.Description
import QubitRouting.Proofs.Placement.Greedy
import QubitRouting.Proofs.Placement.Histogram
import QubitRouting.Proofs.Relay.Native
import QubitRouting.Proofs.Simulation.Relocation
import QubitRouting.Proofs.Table.Entries
import QubitRouting.Proofs.Table.Meaning
import QubitRouting.Proofs.Template.Native

/-!
Placing a circuit preserves its meaning. Whatever layout is chosen, by either strategy and over
either router, the routed and cleaned circuit does on the images of the lines what the circuit does
on its lines, and leaves the other qubits of the device alone.
-/

namespace QubitRouting

variable {c : Circuit} {r : Router} {s : Settings} {l : Layout} {size : Nat} {gate : Gate}

namespace Layout

theorem Covers.fits {lines : Nat} (hl : l.Covers lines size) (hg : gate.Fits lines) :
    (gate.mapLines (imageOf l.images)).Fits size :=
  Gate.Fits.moved hl.distinct hl.inside (hg.mono hl.long)

theorem relocate_ok (hl : l.Covers c.lines size) (hg : gate.Fits c.lines) :
    l.relocate size gate = .ok (gate.mapLines (imageOf l.images)) := by
  have hall : gate.lines.all (· < l.size) = true := by
    rw [List.all_eq_true]
    intro q hq
    exact decide_eq_true (Nat.lt_of_lt_of_le (hg.inside q hq) hl.long)
  rw [relocate, if_pos hall]
  simp only
  rw [show (fun q => l.images.getD q 0) = imageOf l.images from rfl,
    Gate.fault?_eq_none_iff.2 (hl.fits hg)]

def relocated (l : Layout) (c : Circuit) (size : Nat) : Circuit :=
  ⟨c.name, size, c.gates.map (Gate.mapLines (imageOf l.images))⟩

theorem apply_ok (hl : l.Covers c.lines size) (hv : c.Valid) (hsize : size < wordBound) :
    l.apply c size = .ok (l.relocated c size) := by
  have hgates := mapM_eq_ok_map fun gate hgate => relocate_ok hl (hv gate hgate)
  simp only [apply, Nat.not_lt.2 hl.long, Nat.not_le.2 hsize, if_false, hgates]
  rfl

theorem valid_relocated (hl : l.Covers c.lines size) (hv : c.Valid) :
    (l.relocated c size).Valid :=
  List.forall_mem_map.2 fun gate hgate => hl.fits (hv gate hgate)

end Layout

/-- Both strategies try layouts that send the lines to different qubits, at least one. -/
theorem candidates_inject (h : Histogram) (hl : c.lines ≤ r.size) :
    (placementCandidates c r s h).2 ≠ [] ∧
      ∀ x ∈ (placementCandidates c r s h).2, x.1.Injects c.lines r.size := by
  unfold placementCandidates
  split_ifs
  · refine ⟨exhaustiveCandidates_ne_nil hl, fun x hx => ?_⟩
    exact (mem_exhaustiveCandidates.1 hx).1
  · refine ⟨List.cons_ne_nil _ _, List.forall_mem_singleton.2 ?_⟩
    exact injects_greedyLayout h r hl

/-- A search for a circuit that fits ends as its candidates do: with the error of the first that
fails, or with the best placement. -/
theorem exists_candidates (hl : c.lines ≤ r.size) (hv : c.Valid) (s : Settings) :
    ∃ strategy candidates, candidates ≠ [] ∧ (∀ x ∈ candidates, x.1.Injects c.lines r.size) ∧
      (∀ e, candidates.mapM (Placement.realize c r strategy candidates.length) = .error e →
        searchPlacement c r s = .error e) ∧
      ∀ placements p,
        candidates.mapM (Placement.realize c r strategy candidates.length) = .ok placements →
        Placement.best placements = some p → searchPlacement c r s = .ok (.placed p) := by
  have hhist := Histogram.ofCircuit?_eq hv
  generalize Histogram.mk c.lines (c.gates.filterMap Gate.pair?) = hist at hhist
  obtain ⟨hsome, hinject⟩ := candidates_inject (s := s) hist hl
  have hfits := Nat.not_lt.2 hl
  generalize hpair : placementCandidates c r s hist = pair at hsome hinject
  obtain ⟨strategy, candidates⟩ := pair
  refine ⟨strategy, candidates, hsome, hinject, ?_, ?_⟩
  · intro e hfailed
    rw [searchPlacement, if_neg hfits]
    simp only [hhist, hpair, hfailed, error_bind]
  · intro placements p hplacements hbest
    rw [searchPlacement, if_neg hfits]
    simp only [hhist, hpair, hplacements, ok_bind, hbest]
    rfl

theorem cleaned_ok (hv : c.Valid) :
    ∃ out, cleaned c = .ok out ∧ out.circuit = { c with gates := keptGates c.gates } := by
  have hkept : ({ c with gates := keptGates c.gates } : Circuit).Valid :=
    hv.sublist (sublist_of_deletions (deletions_keptGates _))
  rw [cleaned, Circuit.removeDuplicates_eq hv]
  simp only [Except.mapError, ok_bind, RoutedCircuit.ofCircuit, Circuit.depth?_of_fit hkept]
  exact ⟨_, rfl, rfl⟩

/-- A gate that a router refuses: one that it rewrites, with more than one control. -/
def Gate.crowded (rewritten : Gate → Bool) (gate : Gate) : Bool :=
  rewritten gate && 2 ≤ gate.controls.length

/-- A gate that a router can rewrite has one target when it has one control. -/
def Gate.Single (rewritten : Gate → Bool) (gate : Gate) : Prop :=
  rewritten gate = true → gate.controls.length = 1 → gate.targets.length = 1

instance (rewritten : Gate → Bool) (gate : Gate) : Decidable (gate.Single rewritten) :=
  inferInstanceAs (Decidable (_ → _ → _))

section Search

variable {R : Type} [CommRing R] {matrix : GateKind → Matrix2 R} {rewritten : Gate → Bool}
  {f : Gate → Except RoutingError (List Gate)}

/-- The router goes gate by gate. It refuses the crowded gates, and replaces all others by gates of
the device that act alike. Moving a gate changes nothing about that. -/
structure Router.Rewrites (matrix : GateKind → Matrix2 R) (rewritten : Gate → Bool)
    (f : Gate → Except RoutingError (List Gate)) (r : Router) : Prop where
  route : ∀ c : Circuit, r.route c = c.routeBy r.size f
  moved : ∀ gate lines, rewritten (Gate.mapLines lines gate) = rewritten gate
  refused : ∀ gate, gate.Fits r.size → rewritten gate = true → 2 ≤ gate.controls.length →
    f gate = .error gate.refusal
  replaced : ∀ gate, gate.Fits r.size → gate.Single rewritten →
    (rewritten gate = true → gate.controls.length ≤ 1) →
    ∃ part, f gate = .ok part ∧ Circuit.Replaces matrix r.size gate part

/-- A search over the router fails where there is a crowded gate, as the router does at the first of
them, on the images of its lines. Without one it places the circuit, all lines on different qubits
of the device, and what is placed does what the circuit does. -/
structure Router.Places (matrix : GateKind → Matrix2 R) (rewritten : Gate → Bool) (r : Router)
    (s : Settings) (c : Circuit) : Prop where
  refused : ∀ first, c.gates.find? (Gate.crowded rewritten) = some first →
    ∃ l : Layout, l.Injects c.lines r.size ∧
      r.route (l.relocated c r.size) = .error (first.mapLines (imageOf l.images)).refusal ∧
      searchPlacement c r s = .error (first.mapLines (imageOf l.images)).refusal
  placed : c.gates.find? (Gate.crowded rewritten) = none →
    ∃ p, searchPlacement c r s = .ok (.placed p) ∧ p.layout.Injects c.lines r.size ∧
      p.routed.circuit.lines = r.size ∧
      Realizes matrix p.layout.images r.size p.routed.circuit.gates c.gates

namespace Router.Rewrites

theorem replaced_relocated (hr : r.Rewrites matrix rewritten f) (hl : l.Injects c.lines r.size)
    (hv : c.Valid) (hone : ∀ gate ∈ c.gates, gate.Single rewritten) :
    ∀ x ∈ (l.relocated c r.size).gates, (rewritten x = true → x.controls.length ≤ 1) →
      ∃ part, f x = .ok part ∧ Circuit.Replaces matrix r.size x part := by
  intro x hx hfew
  have hfits := Layout.valid_relocated hl.covers hv x hx
  obtain ⟨gate, hgate, rfl⟩ := List.mem_map.1 hx
  refine hr.replaced _ hfits (fun hrewritten hc => ?_) hfew
  rw [hr.moved] at hrewritten
  simpa [Gate.mapLines] using hone gate hgate hrewritten (by simpa [Gate.mapLines] using hc)

theorem find?_relocated (hr : r.Rewrites matrix rewritten f) (l : Layout) (c : Circuit) :
    (l.relocated c r.size).gates.find? (Gate.crowded rewritten) =
      (c.gates.find? (Gate.crowded rewritten)).map (Gate.mapLines (imageOf l.images)) := by
  have hmoved : Gate.crowded rewritten ∘ Gate.mapLines (imageOf l.images) =
      Gate.crowded rewritten := by
    funext gate
    rw [Function.comp_apply, Gate.crowded, Gate.crowded, hr.moved]
    simp [Gate.mapLines]
  rw [Layout.relocated, List.find?_map, hmoved]

theorem route_relocated (hr : r.Rewrites matrix rewritten f) (hl : l.Injects c.lines r.size)
    (hv : c.Valid) (hone : ∀ gate ∈ c.gates, gate.Single rewritten)
    (hnone : c.gates.find? (Gate.crowded rewritten) = none) :
    ∃ out, r.route (l.relocated c r.size) = .ok out ∧ out.circuit.lines = r.size ∧
      out.circuit.Valid ∧
      Wave.run matrix out.circuit.gates = Wave.run matrix (l.relocated c r.size).gates := by
  have hfew : ∀ x ∈ (l.relocated c r.size).gates,
      rewritten x = true → x.controls.length ≤ 1 := by
    have hmoved := hr.find?_relocated l c
    rw [hnone, Option.map_none, List.find?_eq_none] at hmoved
    intro x hx hrewritten
    have hcrowded := hmoved x hx
    simp only [Gate.crowded, hrewritten, Bool.true_and, decide_eq_true_eq] at hcrowded
    omega
  have hlines : (l.relocated c r.size).lines ≤ r.size := Nat.le_refl _
  obtain ⟨out, hout, hsize, -, alike⟩ := Circuit.routeBy_ok hlines
    (Layout.valid_relocated hl.covers hv) fun x hx =>
      hr.replaced_relocated hl hv hone x hx (hfew x hx)
  have hemitted := (Circuit.of_routeBy hlines hout).2
  refine ⟨out, (hr.route _).trans hout, hsize, fun x hx => ?_, funext alike.waves⟩
  rw [hsize]
  exact (hemitted x hx).1

theorem route_refused (hr : r.Rewrites matrix rewritten f) (hl : l.Injects c.lines r.size)
    (hv : c.Valid) (hone : ∀ gate ∈ c.gates, gate.Single rewritten) {first : Gate}
    (hfirst : c.gates.find? (Gate.crowded rewritten) = some first) :
    r.route (l.relocated c r.size) =
      .error (first.mapLines (imageOf l.images)).refusal := by
  rw [hr.route]
  refine Circuit.routeBy_refused (Nat.le_refl _) ?_
    (hr.replaced_relocated hl hv hone) ?_
  · intro x hx
    exact hr.refused x (Layout.valid_relocated hl.covers hv x hx)
  · exact (hr.find?_relocated l c).trans (congrArg _ hfirst)

theorem realize_ok (hr : r.Rewrites matrix rewritten f) (hM : Undone matrix)
    (hsize : r.size < wordBound) (hl : l.Injects c.lines r.size) (hv : c.Valid)
    (hone : ∀ gate ∈ c.gates, gate.Single rewritten)
    (hnone : c.gates.find? (Gate.crowded rewritten) = none) (strategy : Strategy)
    (count e : Nat) :
    ∃ p, Placement.realize c r strategy count (l, e) = .ok p ∧ p.layout = l ∧
      p.routed.circuit.lines = r.size ∧
      Realizes matrix l.images r.size p.routed.circuit.gates c.gates := by
  obtain ⟨out, hroute, hlines, hvalid, hrun⟩ := hr.route_relocated hl hv hone hnone
  obtain ⟨clean, hclean, hkept⟩ := cleaned_ok hvalid
  refine ⟨⟨l, e, clean, count, strategy⟩, ?_, rfl, ?_, ?_⟩
  · rw [Placement.realize]
    simp only [Layout.apply_ok hl.covers hv hsize, ok_bind, hroute, hclean]
    rfl
  · rw [hkept]
    exact hlines
  · rw [hkept]
    have hdel := deletions_keptGates out.circuit.gates
    refine .of_run_eq hl.distinct hl.inside (fun x hx => ?_) (hl.length.symm ▸ hv) ?_
    · exact hlines ▸ hvalid x ((sublist_of_deletions hdel).subset hx)
    · exact (Wave.run_deletions hM hvalid hdel).symm.trans hrun

theorem realize_refused (hr : r.Rewrites matrix rewritten f) (hsize : r.size < wordBound)
    (hl : l.Injects c.lines r.size) (hv : c.Valid)
    (hone : ∀ gate ∈ c.gates, gate.Single rewritten) {first : Gate}
    (hfirst : c.gates.find? (Gate.crowded rewritten) = some first) (strategy : Strategy)
    (count e : Nat) :
    Placement.realize c r strategy count (l, e) =
      .error (first.mapLines (imageOf l.images)).refusal := by
  rw [Placement.realize]
  simp only [Layout.apply_ok hl.covers hv hsize, ok_bind, hr.route_refused hl hv hone hfirst,
    error_bind]

theorem search_refused (hr : r.Rewrites matrix rewritten f) (hsize : r.size < wordBound)
    (hl : c.lines ≤ r.size) (hv : c.Valid) (hone : ∀ gate ∈ c.gates, gate.Single rewritten)
    {first : Gate} (hfirst : c.gates.find? (Gate.crowded rewritten) = some first) (s : Settings) :
    ∃ l : Layout, l.Injects c.lines r.size ∧
      r.route (l.relocated c r.size) = .error (first.mapLines (imageOf l.images)).refusal ∧
      searchPlacement c r s = .error (first.mapLines (imageOf l.images)).refusal := by
  obtain ⟨strategy, candidates, hsome, hinject, hfailed, -⟩ := exists_candidates hl hv s
  obtain ⟨x, rest, rfl⟩ := List.exists_cons_of_ne_nil hsome
  have hx := hinject x List.mem_cons_self
  refine ⟨x.1, hx, hr.route_refused hx hv hone hfirst, hfailed _ ?_⟩
  rw [List.mapM_cons, hr.realize_refused hsize hx hv hone hfirst, error_bind]

theorem search_placed (hr : r.Rewrites matrix rewritten f) (hM : Undone matrix)
    (hsize : r.size < wordBound) (hl : c.lines ≤ r.size) (hv : c.Valid)
    (hone : ∀ gate ∈ c.gates, gate.Single rewritten)
    (hnone : c.gates.find? (Gate.crowded rewritten) = none) (s : Settings) :
    ∃ p, searchPlacement c r s = .ok (.placed p) ∧ p.layout.Injects c.lines r.size ∧
      p.routed.circuit.lines = r.size ∧
      Realizes matrix p.layout.images r.size p.routed.circuit.gates c.gates := by
  obtain ⟨strategy, candidates, hsome, hinject, -, hplaced⟩ := exists_candidates hl hv s
  have realized := fun x hx =>
    hr.realize_ok hM hsize (hinject x hx) hv hone hnone strategy candidates.length x.2
  obtain ⟨placements, hplacements, hall⟩ := mapM_ok_of_forall realized
  obtain ⟨p, hp⟩ : ∃ p, Placement.best placements = some p := by
    rw [Placement.best_eq_argmin]
    refine Option.ne_none_iff_exists'.1 fun hbest => hsome ?_
    rw [List.argmin_eq_none] at hbest
    exact List.forall₂_nil_right_iff.1 (hbest ▸ hall)
  obtain ⟨x, hx, hrealize⟩ := exists_of_mem_mapM hplacements (Placement.mem_of_best hp)
  obtain ⟨p', hrealize', hlayout, hlines, hrealizes⟩ := realized x hx
  obtain rfl := Except.ok.inj (hrealize.symm.trans hrealize')
  exact ⟨p, hplaced _ p hplacements hp, hlayout ▸ hinject x hx, hlines, hlayout ▸ hrealizes⟩

theorem places (hr : r.Rewrites matrix rewritten f) (hM : Undone matrix)
    (hsize : r.size < wordBound) (hl : c.lines ≤ r.size) (hv : c.Valid)
    (hone : ∀ gate ∈ c.gates, gate.Single rewritten) (s : Settings) :
    r.Places matrix rewritten s c :=
  ⟨fun _ hfirst => hr.search_refused hsize hl hv hone hfirst s,
    fun hnone => hr.search_placed hM hsize hl hv hone hnone s⟩

end Router.Rewrites

end Search

section Matrices

variable {R : Type} [CommRing R] {s : R} {w : Rˣ} {matrix : GateKind → Matrix2 R}

/-- The matrices of a simulation: moreover, `w` is a proper eighth root of one, and the Pauli
operators are the usual ones. Their proper roots are left open, apart from the quarter turns about
the z axis. -/
structure Simulated (s : R) (w : Rˣ) (matrix : GateKind → Matrix2 R) : Prop extends
    Rooted s w matrix where
  eighth : (w : R) ^ 4 = -1
  pauli_x : ∀ adjoint, matrix (.pauli .x 1 adjoint) = ⟨0, 1, 1, 0⟩
  pauli_y : ∀ adjoint, matrix (.pauli .y 1 adjoint) = ⟨0, -(w * w), w * w, 0⟩
  pauli_z : ∀ adjoint, matrix (.pauli .z 1 adjoint) = .diagonal 1 (-1)

theorem simulated_modularPauli : Simulated 3 eighthRoot Circuit.modularPauli where
  half := by decide
  toffoli := rfl
  hadamard := rfl
  quarter := rfl
  quarter_adjoint := rfl
  root := by decide
  root_adjoint := by decide
  eighth := by decide
  pauli_x := by decide
  pauli_y := by decide
  pauli_z := by decide

namespace Simulated

theorem pauli_undone (hM : Simulated s w matrix) (axis : Axis) (adjoint : Bool) :
    (matrix (.pauli axis 1 adjoint)).mul (matrix (.pauli axis 1 adjoint)) = .diagonal 1 1 := by
  have hfourth := hM.eighth
  cases axis with
  | x => simp [hM.pauli_x, Matrix2.mul, Matrix2.diagonal]
  | y =>
    have hsquare : -((w : R) * w * (w * w)) = 1 := by linear_combination -hfourth
    simp [hM.pauli_y, Matrix2.mul, Matrix2.diagonal, hsquare]
  | z => simp [hM.pauli_z, Matrix2.mul, Matrix2.diagonal]

/-- Whatever a sweep takes away is undone by these matrices. -/
theorem undone (hM : Simulated s w matrix) : Undone matrix where
  toffoli := by simp [hM.toffoli, Matrix2.mul, Matrix2.diagonal]
  hadamard := by
    have htwice : s * s + s * s = 1 := by linear_combination hM.half
    simp [hM.hadamard, Matrix2.mul, Matrix2.diagonal, htwice]
  pauli := hM.pauli_undone
  root adjoint := by
    cases adjoint with
    | false => exact hM.root_adjoint
    | true =>
      refine Eq.trans ?_ hM.root_adjoint
      have hroot := hM.matrix_root
      simp only [Bool.not_true, hroot, Matrix2.mul, Matrix2.mk.injEq]
      refine ⟨?_, ?_, ?_, ?_⟩ <;> ring

end Simulated

theorem RoutingTable.rewrites_router (hM : Standard s matrix) {g : Graph} {limit : Option Nat}
    {t : RoutingTable} (ht : build g limit = .ok t) :
    t.router.Rewrites matrix Gate.isToffoli t.routeGate where
  route _ := rfl
  moved _ _ := rfl
  refused _ _ := routeGate_of_crowded
  replaced gate hfit hone hfew := by
    refine routeGate_replaces hM ht hfit (fun hcnot => ?_) hfew
    obtain ⟨hnot, hc⟩ := Gate.isCnot_iff.1 hcnot
    exact hone hnot hc

theorem MethodMatrix.rewrites_router (hM : Rooted s w matrix) {m : MethodMatrix} (hm : m.Sound)
    (variant : Variant) : (m.router variant).Rewrites matrix Gate.isRewritten
      (m.routeGate variant) where
  route _ := rfl
  moved _ _ := rfl
  refused _ hfit := routeGate_of_crowded hfit
  replaced _ hfit := routeGate_replaces hM hm hfit

/-- On every device that fits memory, with any limit on relays, and on the five qubits of a template
in both styles: the search places every circuit that fits and that has no gate to be rewritten with
more than one control, on different qubits, and what it places does what the circuit does and leaves
all other qubits alone. It refuses all other circuits that fit. -/
theorem placement_meaning (hM : Simulated s w matrix) (settings : Settings) {c : Circuit}
    (hv : c.Valid) (hone : ∀ gate ∈ c.gates, gate.Single Gate.isRewritten) :
    (∀ g limit t, Graph.countable g.size = true → RoutingTable.build g limit = .ok t →
      c.lines ≤ t.size → t.router.Places matrix Gate.isToffoli settings c) ∧
    ∀ name g m variant, MethodMatrix.ofGraph name g = .ok m → c.lines ≤ templateSize →
      (m.router variant).Places matrix Gate.isRewritten settings c := by
  constructor
  · intro g limit t hg ht hl
    have hsize : t.size < wordBound := by
      rw [RoutingTable.size, RoutingTable.build_graph ht]
      exact Graph.lt_of_countable hg
    have hnot : ∀ gate ∈ c.gates, gate.Single Gate.isToffoli := fun gate hgate hnot =>
      hone gate hgate (Gate.isRewritten_of_isToffoli hnot)
    have rewrites := RoutingTable.rewrites_router hM.toStandard ht
    exact rewrites.places hM.undone hsize hl hv hnot settings
  · intro name g m variant hm hl
    have sound := MethodMatrix.sound_of_ofGraph hm
    have rewrites := MethodMatrix.rewrites_router hM.toRooted sound variant
    have hsize : templateSize < wordBound := by decide
    exact rewrites.places hM.undone hsize hl hv hone settings

def bothWays : Circuit where
  name := "both"
  lines := 2
  gates := [.toffoli [⟨0, false⟩] 1, .controlledV 1 0 true, ⟨.pauli .y 1 false, [], [0]⟩]

/-- Two lines on a row of three qubits, where all layouts are tried and where the greedy one is, and
on the star. -/
theorem placement_meaning_both :
    (∃ t p p', RoutingTable.build (.row 3) none = .ok t ∧
      searchPlacement bothWays t.router .default = .ok (.placed p) ∧
      Realizes Circuit.modularPauli p.layout.images 3 p.routed.circuit.gates bothWays.gates ∧
      searchPlacement bothWays t.router ⟨10, 0, none, .template⟩ = .ok (.placed p') ∧
      Realizes Circuit.modularPauli p'.layout.images 3 p'.routed.circuit.gates bothWays.gates) ∧
    ∃ m p, MethodMatrix.ofGraph "star" MethodMatrix.star = .ok m ∧
      searchPlacement bothWays (m.router .swap) .default = .ok (.placed p) ∧
      Realizes Circuit.modularPauli p.layout.images 5 p.routed.circuit.gates bothWays.gates := by
  have meaning := fun settings => placement_meaning simulated_modularPauli settings
    (c := bothWays) (by decide) (by decide)
  obtain ⟨t, ht⟩ := RoutingTable.exists_build_row
  have hsize : t.size = 3 := congrArg Graph.size (RoutingTable.build_graph ht)
  have table := fun settings => (meaning settings).1 _ _ t (by decide) ht (by rw [hsize]; decide)
  obtain ⟨p, hp, -, -, realizes⟩ := (table .default).placed (by decide)
  obtain ⟨p', hp', -, -, realizes'⟩ := (table ⟨10, 0, none, .template⟩).placed (by decide)
  have hstar : (MethodMatrix.ofGraph "star" MethodMatrix.star).isOk = true := by decide +kernel
  obtain ⟨m, hm⟩ := isOk_iff.1 hstar
  obtain ⟨q, hq, -, -, onStar⟩ :=
    ((meaning .default).2 _ _ m .swap hm (by decide)).placed (by decide)
  have hrow : t.router.size = 3 := hsize
  rw [hrow] at realizes realizes'
  exact ⟨⟨t, p, p', ht, hp, realizes, hp', realizes'⟩, m, q, hm, hq, onStar⟩

end Matrices

end QubitRouting
