import QubitRouting.Circuit.Basic
import QubitRouting.Number

/-!
Interaction counts: how often each ordered pair of lines is the control and the first target of a
one-control NOT.
-/

namespace QubitRouting

structure Histogram where
  lines : Nat
  /-- One entry for every counted gate, control first. -/
  pairs : List (Qubit × Qubit)
  deriving DecidableEq, Repr, Inhabited

namespace Histogram

def interaction? (lines : Nat) (g : Gate) : Option (Qubit × Qubit) := do
  let control ← g.control?
  let target ← g.target?
  if control.line < lines ∧ target < lines then return (control.line, target) else none

def ofCircuit? (c : Circuit) : Option Histogram := do
  let pairs ← (c.gates.filter Gate.isCnot).mapM (interaction? c.lines)
  return ⟨c.lines, pairs⟩

/-- The counts of a circuit with any number of lines, as long as a word for each ordered pair of
lines fits one block of memory. A circuit that fits a device needs no such test. -/
def tabulate? (c : Circuit) : Option Histogram :=
  if fitsBlock wordBytes (c.lines * c.lines) then ofCircuit? c else none

def count (h : Histogram) (control target : Qubit) : Nat := h.pairs.count (control, target)

def weight (h : Histogram) (a b : Qubit) : Nat := h.count a b + h.count b a

def total (h : Histogram) : Nat := h.pairs.length

def controls (h : Histogram) : List Qubit :=
  (List.range h.lines).filter fun c => h.pairs.any fun (control, _) => control == c

/-- The pairs that interact with their counts, row by row. The rows of lines that control nothing
are empty and left out. -/
def interactions (h : Histogram) : List (Qubit × Qubit × Nat) :=
  h.controls.flatMap fun c =>
    ((List.range h.lines).map fun t => (c, t, h.count c t)).filter fun (_, _, n) => 0 < n

end Histogram

end QubitRouting
