import QubitRouting.Circuit.Cancellation
import QubitRouting.Placement.Candidates
import QubitRouting.Placement.Greedy
import QubitRouting.Settings.Basic

/-!
The search for a layout. On small devices all injective layouts of nearly least estimate are routed
and cleaned, and the one with the fewest gates is chosen; on larger devices the greedy layout is the
only candidate. A circuit with more lines than the device has qubits is left as it is.
-/

namespace QubitRouting

inductive Strategy where
  | exhaustive
  | greedy
  deriving DecidableEq, Repr, Inhabited

def Strategy.name : Strategy → String
  | .exhaustive => "exhaustive"
  | .greedy => "greedy"

structure Placement where
  layout : Layout
  estimate : Nat
  routed : RoutedCircuit
  candidates : Nat
  strategy : Strategy
  deriving DecidableEq, Repr, Inhabited

inductive PlacementOutcome where
  | placed (p : Placement)
  | skipped (circuit : Circuit) (reason : SkipReason)
  deriving DecidableEq, Repr, Inhabited

namespace PlacementOutcome

/-- The routed circuit, or the input where the search was skipped. -/
def circuit : PlacementOutcome → Circuit
  | .placed p => p.routed.circuit
  | .skipped c _ => c

def isPlaced : PlacementOutcome → Bool
  | .placed _ => true
  | .skipped .. => false

def toJson : PlacementOutcome → Json
  | .placed p =>
    .obj [("outcome", .str "placed"), ("layout", p.layout.toJson), ("estimate", .nat p.estimate),
      ("routed", p.routed.toJson), ("candidates", .nat p.candidates),
      ("strategy", .str p.strategy.name)]
  | .skipped c reason =>
    .obj [("outcome", .str "skipped"), ("circuit", c.toJson), ("reason", .str reason.message)]

end PlacementOutcome

def cleaned (c : Circuit) : Except RoutingError RoutedCircuit := do
  RoutedCircuit.ofCircuit (← c.removeDuplicates.mapError .circuit) none

namespace Placement

def realize (c : Circuit) (r : Router) (strategy : Strategy) (candidates : Nat)
    (candidate : Layout × Nat) : Except RoutingError Placement := do
  let (layout, estimate) := candidate
  let moved ← layout.apply c r.size
  let routed ← cleaned (← r.route moved).circuit
  return ⟨layout, estimate, routed, candidates, strategy⟩

def better (a b : Placement) : Bool :=
  a.routed.gateCount < b.routed.gateCount ||
    (a.routed.gateCount = b.routed.gateCount && a.estimate < b.estimate)

def best : List Placement → Option Placement
  | [] => none
  | p :: rest => some (rest.foldl (fun b q => if q.better b then q else b) p)

end Placement

def placementCandidates (c : Circuit) (r : Router) (s : Settings) (h : Histogram) :
    Strategy × List (Layout × Nat) :=
  if r.size ≤ s.exhaustiveLimit then
    (.exhaustive, exhaustiveCandidates h r c.lines s.placementSlack)
  else
    let layout := greedyLayout h r c.lines
    (.greedy, [(layout, layout.estimate h r)])

def searchPlacement (c : Circuit) (r : Router) (s : Settings) :
    Except RoutingError PlacementOutcome :=
  if r.size < c.lines then .ok (.skipped c (.placement c.lines r.size))
  else
    match Histogram.ofCircuit? c with
    | none => .error (.defect .lineOutside)
    | some h => do
      let (strategy, candidates) := placementCandidates c r s h
      let placements ← candidates.mapM (Placement.realize c r strategy candidates.length)
      match Placement.best placements with
      | none => return .skipped c .noLayout
      | some p => return .placed p

end QubitRouting
