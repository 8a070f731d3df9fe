import QubitRouting.Relay.Move
import QubitRouting.Number

/-!
Paths: the moves of one routed CNOT in order. A search finds relays followed by a terminal move;
`complete` adds the moves that undo the relays, and `mergeRelays?` replaces control relays that feed
a native CNOT by nested three-qubit relays.
-/

namespace QubitRouting

abbrev Path := List Move

namespace Path

/-- The cost of a path after an open run of three-qubit relays whose gates number `window`. The
first of a run emits a window of four CNOTs; each further one wraps the window `W` as
`CX W CX W`. -/
def costFrom (window : Option Nat) : Path → Nat
  | [] => 0
  | .cnot3 .. :: rest =>
    match window with
    | none => Move.cnot3Cost + costFrom (some (Move.cnot3Cost + 1)) rest
    | some w => w + 2 + costFrom (some (2 * w + 2)) rest
  | m :: rest => m.cost + costFrom none rest

/-- The number of gates that the path adds. -/
def cost (p : Path) : Nat := costFrom none p

def cost? (p : Path) : Option Nat := if p.cost < wordBound then some p.cost else none

/-- The cost of a path that ends in its terminal once the relays are undone: the relays are paid
twice and the terminal once. -/
def roundTrip (p : Path) : Nat := 2 * p.cost - (p.getLast?.map Move.cost).getD 0

def roundTrip? (p : Path) : Option Nat := if 2 * p.cost < wordBound then some p.roundTrip else none

def undoing (p : Path) : Path := (p.reverse.filter (!·.isTerminal)).map Move.inverse

def complete (p : Path) : Path := p ++ p.undoing

/-- Takes the control relays that lead to `hop` off a path, latest move first, and turns each into a
three-qubit relay to `target`. -/
def mergeRun (target hop : Qubit) : Path → Path × Path
  | [] => ([], [])
  | m :: rest =>
    match m with
    | .relay ⟨.control, .along, false, a, b⟩ =>
      if b = hop then
        let (merged, left) := mergeRun target a rest
        (.cnot3 a b target :: merged, left)
      else ([], m :: rest)
    | _ => ([], m :: rest)

/-- The path with the run of control relays that feeds its native CNOT turned into three-qubit
relays, innermost first; none when there is no such run. -/
def mergeRelays? (p : Path) : Option Path :=
  match p.reverse with
  | .nop hop target :: moves =>
    match mergeRun target hop moves with
    | ([], _) => none
    | (merged, left) => some (left.reverse ++ merged)
  | _ => none

def text (p : Path) : String := "; ".intercalate (p.map Move.text)

end Path

end QubitRouting
