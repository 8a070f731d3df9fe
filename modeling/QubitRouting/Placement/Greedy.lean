import QubitRouting.Placement.Layout

/-!
A layout that grows line by line. The pair of lines that interacts most goes on the cheapest pair of
qubits; then the line that interacts most with the lines already placed goes on the free qubit that
adds the least, until all lines are placed or no qubit is free. The first of equals is taken
throughout.
-/

namespace QubitRouting

def firstMax (key : α → Nat) : List α → Option α
  | [] => none
  | x :: rest => some (rest.foldl (fun best y => if key best < key y then y else best) x)

def firstMin (key : α → Nat) : List α → Option α
  | [] => none
  | x :: rest => some (rest.foldl (fun best y => if key y < key best then y else best) x)

namespace Greedy

abbrev Placed := List (Option Qubit)

def settled (placed : Placed) : List (Qubit × Qubit) :=
  placed.zipIdx.filterMap fun (spot, line) => spot.map (line, ·)

def waiting (placed : Placed) : List Qubit :=
  placed.zipIdx.filterMap fun (spot, line) => if spot.isNone then some line else none

def isUsed (placed : Placed) (q : Qubit) : Bool := placed.contains (some q)

def linePairs (lines : List Qubit) : List (Qubit × Qubit) :=
  lines.flatMap fun a => (lines.filter (a < ·)).map (a, ·)

def busyLines (h : Histogram) (lines : Nat) : List Qubit :=
  (List.range lines).filter fun l =>
    h.pairs.any fun (control, target) => control == l || target == l

def heaviestPair (h : Histogram) (lines : Nat) : Option (Qubit × Qubit) :=
  firstMax (fun (a, b) => h.weight a b)
    ((linePairs (busyLines h lines)).filter fun (a, b) => 0 < h.weight a b)

def pairPrice (h : Histogram) (r : Router) (a b p q : Qubit) : Nat :=
  h.count a b * r.price p q + h.count b a * r.price q p

def cheapestPair (h : Histogram) (r : Router) (a b : Qubit) : Option (Qubit × Qubit) :=
  let qubits := List.range r.size
  let pairs := qubits.flatMap fun p => (qubits.filter (· ≠ p)).map (p, ·)
  firstMin (fun (p, q) => pairPrice h r a b p q) pairs

def start (h : Histogram) (r : Router) (lines : Nat) : Placed :=
  let empty := List.replicate lines none
  match heaviestPair h lines with
  | none => empty
  | some (a, b) =>
    match cheapestPair h r a b with
    | none => empty
    | some (p, q) => (empty.set a (some p)).set b (some q)

def settledWeight (h : Histogram) (others : List (Qubit × Qubit)) (line : Qubit) : Nat :=
  others.foldl (fun sum (k, _) => sum + h.weight line k) 0

def nextLine (h : Histogram) (placed : Placed) : Option Qubit :=
  firstMax (settledWeight h (settled placed)) (waiting placed)

def increment (h : Histogram) (r : Router) (others : List (Qubit × Qubit)) (line q : Qubit) :
    Nat :=
  others.foldl
    (fun sum (k, p) => min maxEstimate (sum + (h.count line k * r.price q p +
      h.count k line * r.price p q))) 0

def nextSpot (h : Histogram) (r : Router) (placed : Placed) (line : Qubit) : Option Qubit :=
  firstMin (increment h r (settled placed) line) ((List.range r.size).filter (!isUsed placed ·))

def grow (h : Histogram) (r : Router) (placed : Placed) : Placed :=
  match nextLine h placed with
  | none => placed
  | some line =>
    match nextSpot h r placed line with
    | none => placed
    | some q => placed.set line (some q)

end Greedy

/-- The greedy layout. Every round places a line on a free qubit, so there is nothing left to do
after as many rounds as there are lines, or as there are qubits. -/
def greedyLayout (h : Histogram) (r : Router) (lines : Nat) : Layout :=
  let rounds := min lines r.size
  let placed := rounds.fold (fun _ _ placed => Greedy.grow h r placed) (Greedy.start h r lines)
  ⟨placed.filterMap id⟩

def greedyLayout? (h : Histogram) (r : Router) (lines : Nat) : Option Layout :=
  if fitsBlock wordBytes lines then some (greedyLayout h r lines) else none

end QubitRouting
