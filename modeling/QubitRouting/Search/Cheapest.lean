import QubitRouting.Device.Distance
import QubitRouting.Search.Enumeration

/-!
The cheapest path of one ordered pair. Candidates are the paths of the search, each followed by its
merging into three-qubit relays where it has one; the first candidate of least round trip cost is
chosen. States are turned away when `lowerBound` shows that nothing below them can be chosen.
-/

namespace QubitRouting

def Move.isCab : Move → Bool
  | .relay ⟨.control, .along, false, _, _⟩ => true
  | _ => false

/-- The least round trip cost of a path that starts with these moves. Only a run of control relays
at the end may still become three-qubit relays, which cost 3 for one and 15 for two; from three on
the relays themselves are cheaper. -/
def lowerBound (relays : List Move) : Nat :=
  let run := (relays.reverse.takeWhile Move.isCab).length
  let full := 2 * Move.relayCost
  let merged := match run with
    | 0 => 0
    | 1 => Move.cnot3Cost
    | 2 => 15
    | k => k * full
  (relays.length - run) * full + merged

/-- A cost that some path is known to reach: the control walks a shortest way to a neighbour of the
target, and at most a flip follows. Nothing is known when the walk has more moves than allowed. -/
def Graph.walkingCost? (g : Graph) (limit : Option Nat) (control target : Qubit) : Option Nat := do
  let hops ← g.distance? control target
  if hops = 0 then none
  else if limit.all (hops - 1 ≤ ·) then
    some ((hops - 1) * (2 * Move.relayCost) + Move.flipCost)
  else none

/-- The first candidate of least cost so far, unless a cost left 32 bits. -/
structure CheapestSoFar where
  best : Option (Nat × Path)
  overflow : Bool
  deriving DecidableEq, Repr

namespace CheapestSoFar

def offer (p : Path) (s : CheapestSoFar) : CheapestSoFar :=
  if s.overflow then s
  else match p.roundTrip?, s.best with
    | none, _ => { s with overflow := true }
    | some cost, none => { s with best := some (cost, p) }
    | some cost, some (least, q) =>
      { s with best := if cost < least then some (cost, p) else some (least, q) }

def admits (ceiling : Option Nat) (relays : List Move) (s : CheapestSoFar) : Bool :=
  if s.overflow then false
  else match s.best, ceiling with
    | some (least, _), _ => lowerBound relays < least
    | none, some bound => lowerBound relays ≤ bound
    | none, none => true

def visitor (ceiling : Option Nat) : Visitor CheapestSoFar where
  enter relays s := (s.admits ceiling relays, s)
  complete p s :=
    match p.mergeRelays? with
    | none => s.offer p
    | some merged => (s.offer p).offer merged

end CheapestSoFar

/-- The cheapest path for CNOT from `control` to `target` with its round trip cost, before the
relays are undone. -/
def Graph.cheapest (g : Graph) (limit : Option Nat) (control target : Qubit) :
    Except RoutingError (Nat × Path) :=
  let ceiling := g.walkingCost? limit control target
  let found := g.visit limit (CheapestSoFar.visitor ceiling) control target ⟨none, false⟩
  if found.overflow then .error (.defect .overflow)
  else match found.best with
    | none => .error (.unreachable control target)
    | some choice => .ok choice

end QubitRouting
