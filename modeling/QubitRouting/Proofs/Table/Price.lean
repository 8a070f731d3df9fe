import QubitRouting.Proofs.Routing.Price
import QubitRouting.Proofs.Search.Price
import QubitRouting.Proofs.Table.Completeness
import QubitRouting.Proofs.Table.Meaning

/-!
The prices in a table. An entry is paid in relays, twelve for each, and in the way it ends; the
distance of its pair leaves a margin of thirteen for both together. A path emits one gate more than
it costs, except that two nested relays emit less; a gate that is routed over the table is replaced
by as many gates, and by two NOTs where its control is negative.
-/

namespace QubitRouting

/-- The relays on the way back are undone as they stand, so they are counted by the way there. -/
theorem Path.countP_cnot3_complete {relays core : Path} (hr : relays.Relays)
    (hc : core.Terminals) :
    (complete (relays ++ core)).countP Move.isCnot3 = core.countP Move.isCnot3 := by
  have none : ∀ {p : Path}, p.Relays → p.countP Move.isCnot3 = 0 := by
    intro p hp
    rw [List.countP_eq_zero]
    intro m hm
    cases m with
    | relay r => exact Bool.false_ne_true
    | _ => cases hp _ hm
  rw [complete_relays_append hr hc, List.countP_append, List.countP_append, none hr,
    none hr.inverse, Nat.zero_add, Nat.add_zero]

namespace RoutingEntry

/-- Whether the path of an entry holds two three-qubit relays; it never holds more. -/
def nestsTwice (e : RoutingEntry) : Bool := e.path.countP Move.isCnot3 == 2

/-- An entry leads from `v` and `w` to `a` and `b`, ends there, and returns. -/
structure Ends (g : Graph) (v w : Qubit) (e : RoutingEntry) (relays : List Move) (a b : Qubit)
    (core : Path) (price emitted : Nat) : Prop where
  leads : g.Leads v w relays a b
  ending : Path.Ending a b core price emitted
  unfed : core = [.nop a b] → Graph.cabRun relays = 0
  path : e.path = Path.complete (relays ++ core)
  cost : e.cost = 12 * relays.length + price

namespace Ends

variable {g : Graph} {v w a b : Qubit} {e : RoutingEntry} {relays : List Move} {core : Path}
  {price emitted : Nat} (h : Ends g v w e relays a b core price emitted)
include h

theorem length_gates : e.path.gates.length = 12 * relays.length + emitted := by
  rw [h.path]
  exact h.ending.length_gates_complete h.leads.isRelays

theorem length_gates_eq :
    e.path.gates.length + (if e.nestsTwice then 5 else 0) =
      e.cost + if e.nestsTwice then 0 else 1 := by
  have hcount : e.path.countP Move.isCnot3 = core.countP Move.isCnot3 := by
    rw [h.path]
    exact Path.countP_cnot3_complete h.leads.isRelays h.ending.terminals
  have hemitted := h.ending.emitted_eq
  rw [h.length_gates, h.cost, nestsTwice, hcount]
  split_ifs at hemitted with htwo
  · simp only [htwo, BEq.rfl, if_true]
    omega
  · simp only [beq_iff_eq, htwo, if_false]
    omega

end Ends

end RoutingEntry

namespace RoutingTable

open QubitRouting.Graph

variable {g : Graph} {limit : Option Nat} {t : RoutingTable} {v w : Qubit}

theorem cost?_of_get? {e : RoutingEntry} (he : t.get? v w = some e) :
    t.cost? v w = some e.cost := by
  rw [cost?, he]
  rfl

theorem get?_of_adjacent (ht : build g limit = .ok t) (edge : g.adjacent v w = true) :
    t.get? v w = some ⟨0, [.nop v w]⟩ := by
  obtain ⟨hv, hw⟩ := lt_of_adjacent edge
  obtain ⟨e, he, hentry⟩ := exists_entry ht hv hw (ne_of_adjacent edge)
  rw [entryOf, if_pos edge] at hentry
  rw [he, Except.ok.inj hentry]

theorem exists_ends (ht : build g limit = .ok t) (hv : v < g.size) (hw : w < g.size)
    (hvw : v ≠ w) : ∃ e relays a b core price emitted, t.get? v w = some e ∧
      e.Ends g v w relays a b core price emitted := by
  cases hn : g.adjacent v w with
  | true =>
    exact ⟨_, [], v, w, [.nop v w], 0, 1, get?_of_adjacent ht hn, .start, .native,
      fun _ => rfl, rfl, rfl⟩
  | false =>
    obtain ⟨e, p, he, first, hpath⟩ := exists_choice ht hv hw hvw hn
    have hcost := first.roundTrip_eq
    obtain ⟨relays, a, b, core, price, emitted, rfl, leads, ending, hprice, unfed⟩ :=
      exists_ending_of_least hvw hv hw first.mem (hcost ▸ first.least)
    exact ⟨e, relays, a, b, core, price, emitted, he, leads, ending, unfed, hpath,
      hcost.symm.trans hprice⟩

/-- Every entry consists of relays, an ending and the undoing of the relays. It costs twelve for
each relay and the price of the ending, and it emits one gate more, or five less behind two nested
relays. No run of three relays is merged, and no control relay that could be is left. -/
theorem entry_shape (ht : build g limit = .ok t) (hv : v < g.size) (hw : w < g.size)
    (hvw : v ≠ w) :
    ∃ e relays a b core price emitted, t.get? v w = some e ∧
      e.path = relays ++ core ++ relays.reverse.map Move.inverse ∧
      (∀ m ∈ relays, ∃ r : Relay, m = .relay r ∧ r.Native g ∧ r.undoing = false) ∧
      Path.Ending a b core price emitted ∧
      (core = [.nop a b] → ∀ x, relays.getLast? ≠ some (.cab x a)) ∧
      e.cost = 12 * relays.length + price ∧
      (∀ out, (e.path.emit out).length = out.length + (12 * relays.length + emitted)) ∧
      if e.path.countP Move.isCnot3 = 2 then e.path.gates.length + 5 = e.cost
      else e.path.gates.length = e.cost + 1 := by
  obtain ⟨e, relays, a, b, core, price, emitted, he, ends⟩ := exists_ends ht hv hw hvw
  refine ⟨e, relays, a, b, core, price, emitted, he, ?_, ends.leads.native, ends.ending, ?_,
    ends.cost, fun out => ?_, ?_⟩
  · rw [ends.path, Path.complete_relays_append ends.leads.isRelays ends.ending.terminals]
  · intro hcore x hlast
    obtain ⟨before, rfl⟩ := List.getLast?_eq_some_iff.1 hlast
    have hrun := ends.unfed hcore
    rw [cabRun_concat] at hrun
    cases hrun
  · rw [Path.emit_eq, List.length_append, ends.length_gates]
  · have hlength := ends.length_gates_eq
    rw [RoutingEntry.nestsTwice] at hlength
    split_ifs with htwo
    · simpa [htwo] using hlength
    · simpa [htwo] using hlength

/-- From end to end of a row of four qubits two nested relays are the cheapest way, and emit less
than they cost. -/
theorem entry_of_long_row : ∃ t e, build (row 4) none = .ok t ∧ t.get? 0 3 = some e ∧
    e.cost = 15 ∧ e.path = [.cnot3 1 2 3, .cnot3 0 1 3] ∧ e.path.gates.length = 10 := by
  obtain ⟨t, ht⟩ := exists_build_long_row
  have hentry : (build (row 4) none).toOption.bind (fun t => t.get? 0 3) =
      some ⟨15, [.cnot3 1 2 3, .cnot3 0 1 3]⟩ := by decide +kernel
  obtain ⟨e, -, -, -, -, -, -, he, -, -, -, -, -, -, hgates⟩ :=
    entry_shape (v := 0) (w := 3) ht (by decide) (by decide) (by decide)
  rw [ht] at hentry
  obtain rfl := Option.some.inj (he.symm.trans hentry)
  have hlength := (if_pos (by decide)).mp hgates
  exact ⟨t, _, ht, he, rfl, rfl, Nat.add_right_cancel hlength⟩

theorem cost_of_distance (ht : build g limit = .ok t) (hv : v < g.size) (hw : w < g.size)
    (hvw : v ≠ w) (hn : g.adjacent v w = false) {d : Nat} (hd : g.coupling.edist v w = d)
    (hl : ∀ k ∈ limit, d - 1 ≤ k) :
    ∃ cost, t.cost? v w = some cost ∧ 12 * (d - 1) ≤ cost + 9 ∧ cost ≤ 12 * (d - 1) + 4 ∧
      (g.adjacent w v = true → cost = 4) := by
  obtain ⟨e, p, he, first, -⟩ := exists_choice ht hv hw hvw hn
  have hcost := first.roundTrip_eq
  obtain ⟨q, hq, hupper⟩ := exists_candidate_of_edist hvw hv hw hd hl
  refine ⟨e.cost, cost?_of_get? he, ?_, (first.least q hq).trans hupper, fun edge => ?_⟩
  · rw [← hcost]
    exact le_roundTrip_of_edist hvw hv hw hd first.mem
  · have hp := first.mem
    rw [candidates_of_reversed hvw hv hw hn edge, List.mem_singleton] at hp
    rw [← hcost, hp]
    rfl

/-- The cost of an entry depends on the distance of its pair and on the directions at hand: nothing
for a native pair, a flip for a reversed one, and for the others a relay for each qubit in between,
at most nine cheaper, or dearer by a flip. -/
theorem cost_by_distance (ht : build g limit = .ok t) (hv : v < g.size) (hw : w < g.size)
    (hvw : v ≠ w) :
    ∃ d cost, g.distance? v w = some d ∧ g.coupling.edist v w = d ∧ t.cost? v w = some cost ∧
      (g.adjacent v w = true → cost = 0) ∧
      (g.adjacent v w = false → g.adjacent w v = true → cost = 4) ∧
      (2 ≤ d → 12 * (d - 1) - 9 ≤ cost ∧ cost ≤ 12 * (d - 1) + 4) ∧
      (cost = 0 ↔ g.adjacent v w = true) := by
  obtain ⟨entry, -, hentry⟩ := exists_entry ht hv hw hvw
  obtain ⟨d, hd, hl⟩ := (inReach_of_entry hv hw hvw hentry).1
  have hdistance : g.distance? v w = some d := distance?_eq_some_iff.2 ⟨hv, hw, hd⟩
  cases hn : g.adjacent v w with
  | true =>
    have hcost : t.cost? v w = some 0 := cost?_of_get? (get?_of_adjacent ht hn)
    refine ⟨d, 0, hdistance, hd, hcost, fun _ => rfl, nofun, fun htwo => ?_, by simp⟩
    have hopen := (two_le_edist_iff hvw hd).1 htwo
    rw [coupled, hn, Bool.true_or] at hopen
    cases hopen
  | false =>
    obtain ⟨cost, hcost, hlower, hupper, hreversed⟩ := cost_of_distance ht hv hw hvw hn hd hl
    refine ⟨d, cost, hdistance, hd, hcost, nofun, fun _ => hreversed,
      fun _ => ⟨by omega, hupper⟩, iff_of_false ?_ Bool.false_ne_true⟩
    cases hback : g.adjacent w v with
    | true => exact fun hzero => absurd (hzero.symm.trans (hreversed hback)) (by decide)
    | false =>
      have htwo : 2 ≤ d := (two_le_edist_iff hvw hd).2 (by rw [coupled, hn, hback, Bool.or_false])
      omega

/-- On a row of four qubits: from end to end, from a qubit to the next one, and back. -/
theorem cost_by_distance_row : ∃ t cost, build (row 4) none = .ok t ∧
    t.cost? 0 3 = some cost ∧ 15 ≤ cost ∧ cost ≤ 28 ∧ t.cost? 0 1 = some 0 ∧
    t.cost? 1 0 = some 4 := by
  obtain ⟨t, ht⟩ := exists_build_long_row
  obtain ⟨d, far, hd, -, hfar, -, -, hbounds, -⟩ :=
    cost_by_distance (v := 0) (w := 3) ht (by decide) (by decide) (by decide)
  obtain ⟨-, near, -, -, hnear, hnative, -⟩ :=
    cost_by_distance (v := 0) (w := 1) ht (by decide) (by decide) (by decide)
  obtain ⟨-, back, -, -, hback, -, hreversed, -⟩ :=
    cost_by_distance (v := 1) (w := 0) ht (by decide) (by decide) (by decide)
  have hthree : (row 4).distance? 0 3 = some 3 := by decide +kernel
  obtain rfl : 3 = d := Option.some.inj (hthree.symm.trans hd)
  obtain ⟨hlower, hupper⟩ := hbounds (by decide)
  rw [hnative (by decide)] at hnear
  rw [hreversed (by decide) (by decide)] at hback
  exact ⟨t, far, ht, hfar, hlower, hupper, hnear, hback⟩

section Routing

variable {gate : Gate} {part : List Gate} {e : RoutingEntry}

/-- A CNOT that fires on zero and whose pair is not native, so that NOTs are put around its path. -/
def wraps (t : RoutingTable) (gate : Gate) : Bool :=
  gate.cnot?.any fun (control, target) =>
    !control.positive && !t.graph.adjacent control.line target

def nests (t : RoutingTable) (gate : Gate) : Bool :=
  gate.cnot?.any fun (control, target) => !t.graph.adjacent control.line target &&
    (t.get? control.line target).any RoutingEntry.nestsTwice

theorem price_of_get? (he : t.get? v w = some e) : t.router.price v w = e.cost :=
  Router.price_of_pairCost (cost?_of_get? he)

theorem price_lt (ht : build g limit = .ok t) (v w : Qubit) : t.router.price v w < wordBound := by
  refine Router.price_lt fun cost hcost => ?_
  obtain ⟨e, he, rfl⟩ := Option.map_eq_some_iff.1 hcost
  exact cost_lt_of_entryOf (entryOf_of_get? ht he)

/-- A gate is replaced by one gate and as many more as the table charges for it; two NOTs are not
charged, and of the gates that are charged for two nested relays six are saved. -/
theorem length_routeGate (ht : build g limit = .ok t) (hfit : gate.Fits t.size)
    (hfew : gate.isToffoli = true → gate.controls.length ≤ 1) (h : t.routeGate gate = .ok part) :
    part.length + 6 * (t.nests gate).toNat =
      1 + (t.router.charge gate + 2 * (t.wraps gate).toNat) := by
  simp only [nests, wraps, Router.charge]
  cases hpair : gate.cnot? with
  | none =>
    have hcopied : isControlledNot gate = false := by
      rw [← Bool.not_eq_true, isControlledNot_iff]
      rintro ⟨hnot, hsome⟩
      exact hsome (by rw [Gate.controls_of_cnot?_eq_none hfit hnot (hfew hnot) hpair]; rfl)
    rw [routeGate, if_pos (by simp [hcopied])] at h
    obtain rfl := Except.ok.inj h
    rfl
  | some pair =>
    obtain ⟨control, target⟩ := pair
    obtain ⟨hnot, hc, rest, htargets⟩ := Gate.cnot?_eq_some_iff.1 hpair
    obtain ⟨hline, htarget, hne⟩ := hfit.pair hc htargets
    rw [routeGate_of_pair hfit hnot hc htargets] at h
    simp only [Option.any_some]
    cases hn : t.graph.adjacent control.line target with
    | true =>
      rw [hn, if_pos rfl] at h
      obtain rfl := Except.ok.inj h
      rw [build_graph ht] at hn
      rw [price_of_get? (get?_of_adjacent ht hn)]
      simp
    | false =>
      rw [size, build_graph ht] at hline htarget
      obtain ⟨e, _, _, _, _, _, _, he, ends⟩ := exists_ends ht hline htarget hne
      rw [hn, if_neg Bool.false_ne_true, he] at h
      obtain rfl := Except.ok.inj h
      have hlength := ends.length_gates_eq
      rw [price_of_get? he, Control.length_wrap, he, Option.any_some]
      cases hnests : e.nestsTwice with
      | false =>
        simp only [hnests, Bool.false_eq_true, if_false] at hlength
        simp only [Bool.not_false, Bool.and_true, Bool.and_false, Bool.toNat_false]
        omega
      | true =>
        simp only [hnests, if_true] at hlength
        simp only [Bool.not_false, Bool.and_true, Bool.toNat_true]
        omega

end Routing

end RoutingTable

end QubitRouting
