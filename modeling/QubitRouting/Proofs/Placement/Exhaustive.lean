import QubitRouting.Proofs.Placement.Candidates
import QubitRouting.Proofs.Placement.Search
import QubitRouting.Proofs.Table.Entries
import QubitRouting.Table.Routing

/-!
The exhaustive search returns the optimum of its candidates: by the gates that are left after
routing and cleaning, then by the estimate, then by the order in which candidates are met. A larger
slack never leaves more gates, and the largest one leaves the fewest that any injective layout does.
-/

namespace QubitRouting

open Placement (gatesAfter)

variable {c : Circuit} {r : Router} {s s' : Settings} {p p' : Placement}

/-- The placement is that of a candidate, the first in the order by gates, estimate and position;
all candidates can be routed. -/
structure Placement.IsOptimum (c : Circuit) (r : Router) (candidates : List (Layout × Nat))
    (p : Placement) : Prop where
  counted : p.candidates = candidates.length
  exhaustive : p.strategy = .exhaustive
  first : ∃ i : Nat, candidates[i]? = some (p.layout, p.estimate) ∧
    gatesAfter c r p.layout = .ok p.routed.gateCount ∧
    ∀ (j : Nat) l e, candidates[j]? = some (l, e) → ∃ n, gatesAfter c r l = .ok n ∧
      toLex (p.routed.gateCount, toLex (p.estimate, i)) ≤ toLex (n, toLex (e, j))

theorem isOptimum_of_best {candidates : List (Layout × Nat)} {placements : List Placement}
    (hplacements : candidates.mapM (Placement.realize c r .exhaustive candidates.length) =
      .ok placements) (hbest : Placement.best placements = some p) :
    p.IsOptimum c r candidates := by
  have hmap := map_eq_of_mapM hplacements
  have htried : ∀ (j : Nat) q, placements[j]? = some q →
      ∃ candidate, candidates[j]? = some candidate ∧
        Placement.realize c r .exhaustive candidates.length candidate = .ok q := by
    intro j q hq
    have hj := congrArg (·[j]?) hmap
    simp only [List.getElem?_map, hq, Option.map_some] at hj
    exact Option.map_eq_some_iff.1 hj
  have hplaced : ∀ (j : Nat) l e, candidates[j]? = some (l, e) →
      ∃ q, placements[j]? = some q ∧ (q.layout, q.estimate) = (l, e) ∧
        gatesAfter c r l = .ok q.routed.gateCount := by
    intro j l e hle
    have hj := congrArg (·[j]?) hmap
    simp only [List.getElem?_map, hle, Option.map_some] at hj
    obtain ⟨q, hq, hrealize⟩ := Option.map_eq_some_iff.1 hj.symm
    obtain ⟨hcandidate, -, -, moved, out, stages⟩ := Placement.of_realize hrealize.symm
    refine ⟨q, hq, hcandidate, ?_⟩
    rw [← (Prod.mk.inj hcandidate).1]
    exact stages.gatesAfter
  obtain ⟨i, hi, hleast⟩ := Placement.exists_position_of_best hbest
  obtain ⟨candidate, hcandidate, hrealize⟩ := htried i p hi
  obtain ⟨rfl, hcount, hstrategy, moved, out, stages⟩ := Placement.of_realize hrealize
  refine ⟨hcount, hstrategy, i, hcandidate, stages.gatesAfter, ?_⟩
  intro j l e hle
  obtain ⟨q, hq, heq, hgates⟩ := hplaced j l e hle
  obtain ⟨rfl, rfl⟩ := Prod.mk.inj heq
  refine ⟨q.routed.gateCount, hgates, ?_⟩
  have := hleast j q hq
  simp only [Placement.key, Prod.Lex.toLex_le_toLex, Prod.Lex.toLex_lt_toLex, toLex_inj,
    Prod.mk.injEq] at this ⊢
  omega

/-- On a device within the limit, the placement is the optimum of the exhaustive candidates. -/
theorem isOptimum_of_searchPlacement (hs : r.size ≤ s.exhaustiveLimit)
    (h : searchPlacement c r s = .ok (.placed p)) :
    ∃ hist, Histogram.ofCircuit? c = some hist ∧
      p.IsOptimum c r (exhaustiveCandidates hist r c.lines s.placementSlack) := by
  obtain ⟨hist, placements, hhist, hplacements, hbest⟩ := exists_placements h
  rw [placementCandidates, if_pos hs] at hplacements
  exact ⟨hist, hhist, isOptimum_of_best hplacements hbest⟩

theorem Placement.IsOptimum.mem {candidates : List (Layout × Nat)}
    (h : p.IsOptimum c r candidates) : (p.layout, p.estimate) ∈ candidates := by
  obtain ⟨i, hi, -⟩ := h.first
  exact List.mem_of_getElem? hi

theorem Placement.IsOptimum.le {candidates : List (Layout × Nat)} (h : p.IsOptimum c r candidates)
    {l : Layout} {e : Nat} (hmem : (l, e) ∈ candidates) :
    ∃ n, gatesAfter c r l = .ok n ∧ p.routed.gateCount ≤ n := by
  obtain ⟨i, -, -, hleast⟩ := h.first
  obtain ⟨j, hj⟩ := List.mem_iff_getElem?.1 hmem
  obtain ⟨n, hn, hle⟩ := hleast j l e hj
  refine ⟨n, hn, ?_⟩
  rw [Prod.Lex.toLex_le_toLex] at hle
  omega

/-- The exhaustive search over any router returns the first optimum of its candidates; it is
monotone in the slack; and with the largest slack it returns the fewest gates of all injective
layouts. -/
theorem exhaustive_optimum (c : Circuit) (r : Router) :
    (∀ s p, r.size ≤ s.exhaustiveLimit → searchPlacement c r s = .ok (.placed p) →
      ∃ hist, Histogram.ofCircuit? c = some hist ∧
        p.IsOptimum c r (exhaustiveCandidates hist r c.lines s.placementSlack)) ∧
    (∀ s s' p p', r.size ≤ s.exhaustiveLimit → r.size ≤ s'.exhaustiveLimit →
      s.placementSlack ≤ s'.placementSlack → searchPlacement c r s = .ok (.placed p) →
      searchPlacement c r s' = .ok (.placed p') → p'.routed.gateCount ≤ p.routed.gateCount) ∧
    ∀ s p, r.size ≤ s.exhaustiveLimit → maxEstimate ≤ s.placementSlack →
      searchPlacement c r s = .ok (.placed p) →
      p.layout.Injects c.lines r.size ∧ gatesAfter c r p.layout = .ok p.routed.gateCount ∧
        ∀ l : Layout, l.Injects c.lines r.size →
          ∃ n, gatesAfter c r l = .ok n ∧ p.routed.gateCount ≤ n := by
  refine ⟨fun s p hs => isOptimum_of_searchPlacement hs, ?_, ?_⟩
  · intro s s' p p' hs hs' hslack hp hp'
    obtain ⟨hist, hhist, optimum⟩ := isOptimum_of_searchPlacement hs hp
    obtain ⟨hist', hhist', optimum'⟩ := isOptimum_of_searchPlacement hs' hp'
    obtain rfl : hist = hist' := Option.some.inj (hhist.symm.trans hhist')
    obtain ⟨n, hn, hle⟩ := optimum'.le (exhaustiveCandidates_mono hslack optimum.mem)
    obtain ⟨i, -, hgates, -⟩ := optimum.first
    obtain rfl : n = p.routed.gateCount := Except.ok.inj (hn.symm.trans hgates)
    exact hle
  · intro s p hs hfull hp
    obtain ⟨hist, hhist, optimum⟩ := isOptimum_of_searchPlacement hs hp
    obtain ⟨i, -, hgates, -⟩ := optimum.first
    have hmem := (mem_exhaustiveCandidates_of_full hfull).1 optimum.mem
    refine ⟨hmem.1, hgates, fun l hl => ?_⟩
    exact optimum.le ((mem_exhaustiveCandidates_of_full hfull).2 ⟨hl, rfl⟩)

def twoPartners : Circuit where
  name := "partners"
  lines := 3
  gates := [.cnot 0 1, .cnot 0 2]

/-- The two partners on a row of three qubits: without slack, and with all layouts as candidates. -/
theorem exhaustive_optimum_row : ∃ t p p' hist,
    RoutingTable.build (.row 3) none = .ok t ∧
    searchPlacement twoPartners t.router ⟨0, 5, none, .template⟩ = .ok (.placed p) ∧
    p.IsOptimum twoPartners t.router (exhaustiveCandidates hist t.router 3 0) ∧
    searchPlacement twoPartners t.router ⟨maxEstimate, 5, none, .template⟩ = .ok (.placed p') ∧
    p'.routed.gateCount ≤ p.routed.gateCount ∧ p'.layout.Injects 3 3 := by
  have hrun : ((do
      let t ← RoutingTable.build (.row 3) none
      let first ← searchPlacement twoPartners t.router ⟨0, 5, none, .template⟩
      let second ← searchPlacement twoPartners t.router ⟨maxEstimate, 5, none, .template⟩
      return first.isPlaced && second.isPlaced : Except RoutingError Bool)) = .ok true := by
    decide +kernel
  obtain ⟨t, ht, hrun⟩ := bind_eq_ok_iff.1 hrun
  obtain ⟨first, hfirst, hrun⟩ := bind_eq_ok_iff.1 hrun
  obtain ⟨second, hsecond, hrun⟩ := bind_eq_ok_iff.1 hrun
  obtain ⟨hplaced, hplaced'⟩ := Bool.and_eq_true_iff.1 (Except.ok.inj hrun)
  have hsize : t.router.size = 3 := congrArg Graph.size (RoutingTable.build_graph ht)
  have hlimit : t.router.size ≤ 5 := hsize.trans_le (by decide)
  obtain ⟨optimum, monotone, minimum⟩ := exhaustive_optimum twoPartners t.router
  cases first with
  | skipped => cases hplaced
  | placed p =>
    cases second with
    | skipped => cases hplaced'
    | placed p' =>
      obtain ⟨hist, -, hoptimum⟩ := optimum _ p hlimit hfirst
      obtain ⟨hinjects, -⟩ := minimum _ p' hlimit (Nat.le_refl maxEstimate) hsecond
      rw [hsize] at hinjects
      exact ⟨t, p, p', hist, ht, hfirst, hoptimum, hsecond,
        monotone _ _ p p' hlimit hlimit (Nat.zero_le _) hfirst hsecond, hinjects⟩

end QubitRouting
