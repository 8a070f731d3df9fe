import QubitRouting.Circuit.Basic

/-!
Cancelling gates. Two gates are adjacent when no gate between them shares a line with them; a gate
that is adjacent to its own undoing takes it away, and both are gone. Every line has a pile of the
gates kept on it. One sweep reaches the end, since a pair that is gone uncovers what was kept before
it.
-/

namespace QubitRouting

def Gate.cancels (prev next : Gate) : Bool :=
  match next.kind with
  | .v _ => prev = next.inverse
  | .pauli .. => prev = next && next.isSelfInverse
  | .toffoli => prev = next
  | .hadamard => prev = next

/-- The gates that were met, with a hole for each that is gone, and for every line the places of the
gates kept on it, latest first. -/
structure Sweep where
  gates : Array (Option Gate)
  piles : Array (List Nat)
  deriving DecidableEq, Repr

namespace Sweep

def start (lines : Nat) : Sweep := ⟨#[], Array.replicate lines []⟩

def top? (s : Sweep) (line : Qubit) : Option Nat := do (← s.piles[line]?).head?

/-- The place of the kept gate that is the latest on all lines of `g`, if `g` cancels it. -/
def partner? (s : Sweep) (g : Gate) : Option Nat := do
  let place ← s.top? (← g.lines.head?)
  let prev ← (← s.gates[place]?)
  if g.lines.all (fun q => s.top? q = some place) && prev.cancels g then some place else none

def keep (s : Sweep) (g : Gate) : Sweep where
  gates := s.gates.push (some g)
  piles := g.lines.foldl (fun piles q => piles.modify q (s.gates.size :: ·)) s.piles

def remove (s : Sweep) (place : Nat) (lines : List Qubit) : Sweep where
  gates := s.gates.setIfInBounds place none
  piles := lines.foldl (fun piles q => piles.modify q List.tail) s.piles

def step (s : Sweep) (g : Gate) : Sweep :=
  match s.partner? g with
  | some place => s.remove place g.lines
  | none => s.keep g

def survivors (s : Sweep) : List Gate := s.gates.toList.filterMap id

end Sweep

def Circuit.removeDuplicates (c : Circuit) : Except CircuitError Circuit :=
  ofGates c.name c.lines (c.gates.foldl Sweep.step (.start c.lines)).survivors

end QubitRouting
