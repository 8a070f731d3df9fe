import QubitRouting.Json.Decode
import QubitRouting.Placement.Histogram
import QubitRouting.Routing.Router
import QubitRouting.Number

/-!
Layouts: the device qubit of each line of a circuit. A layout that was made by `Layout.make` maps
different lines to different qubits of the device.
-/

namespace QubitRouting

/-- The qubit of line `i` is entry `i`. -/
structure Layout where
  images : List Qubit
  deriving DecidableEq, Repr, Inhabited

def maxEstimate : Nat := longBound - 1

/-- The price of a pair that cannot interact. -/
def forbidden : Nat := wordBound - 1

def Router.price (r : Router) (control target : Qubit) : Nat :=
  (r.pairCost control target).getD forbidden

namespace Layout

def fault? (size line : Nat) (taken : List Qubit) : List Qubit → Option LayoutFault
  | [] => none
  | q :: rest =>
    if size ≤ q then some (.offDevice line q size)
    else if q ∈ taken then some (.shared q)
    else fault? size (line + 1) (q :: taken) rest

def make (images : List Qubit) (size : Nat) : Except RoutingError Layout :=
  match fault? size 0 [] images with
  | some fault => .error (.layout fault)
  | none => .ok ⟨images⟩

def trivial (lines : Nat) : Layout := ⟨List.range lines⟩

def size (l : Layout) : Nat := l.images.length

def physical? (l : Layout) (line : Qubit) : Option Qubit := l.images[line]?

def logical? (l : Layout) (q : Qubit) : Option Qubit := l.images.findIdx? (· == q)

def pairs (l : Layout) : List (Qubit × Qubit) := l.images.zipIdx.map fun (q, line) => (line, q)

def text (l : Layout) : String :=
  " ".intercalate (l.pairs.map fun (line, q) => s!"{line}->{q}")

def relocate (l : Layout) (size : Nat) (g : Gate) : Except RoutingError Gate :=
  if g.lines.all (· < l.size) then
    let moved := g.mapLines fun q => l.images.getD q 0
    match moved.fault? size with
    | some e => .error (.circuit e)
    | none => .ok moved
  else .error (.defect .lineOutside)

def apply (l : Layout) (c : Circuit) (size : Nat) : Except RoutingError Circuit := do
  if l.size < c.lines then throw (.layout (.tooShort l.size c.lines))
  if wordBound ≤ size then throw (.layout (.hugeDevice size))
  return ⟨c.name, size, ← c.gates.mapM (l.relocate size)⟩

def interactionPrice (l : Layout) (r : Router) : Qubit × Qubit × Nat → Nat
  | (control, target, count) =>
    match l.physical? control, l.physical? target with
    | some c, some t => count * r.price c t
    | _, _ => count * forbidden

def estimateOf (l : Layout) (interactions : List (Qubit × Qubit × Nat)) (r : Router) : Nat :=
  interactions.foldl (fun sum i => min maxEstimate (sum + l.interactionPrice r i)) 0

def estimate (l : Layout) (h : Histogram) (r : Router) : Nat := l.estimateOf h.interactions r

def toJson (l : Layout) : Json := .arr (l.images.map Json.nat)

def ofJson? (j : Json) : Option Layout := do return ⟨← j.list? Json.word?⟩

end Layout

end QubitRouting
