import QubitRouting.Routing.Error
import QubitRouting.Number

/-!
Connectivity graphs: which CNOTs a device performs natively. A graph is a square matrix of truth
values without loops; qubits outside the device are adjacent to none.
-/

namespace QubitRouting

/-- The entry in row `c` and column `t` says whether CNOT from `c` to `t` is native. -/
structure Graph where
  size : Nat
  native : Vector (Vector Bool size) size
  loopless : ∀ (q : Nat) (h : q < size), native[q][q] = false

namespace Graph

instance : DecidableEq Graph := fun g h =>
  match g, h with
  | ⟨n, a, _⟩, ⟨m, b, _⟩ =>
    if e : n = m then by
      subst e
      exact if hab : a = b then isTrue (by simp [hab]) else isFalse (by simp [hab])
    else isFalse (by simp [e])

/-- The graph on `n` qubits whose edges are given by a relation; loops are left out. -/
def tabulate (n : Nat) (edge : Qubit → Qubit → Bool) : Graph where
  size := n
  native := Vector.ofFn fun c => Vector.ofFn fun t => c.val != t.val && edge c t
  loopless := by simp

def adjacent (g : Graph) (control target : Qubit) : Bool :=
  if hc : control < g.size then
    if ht : target < g.size then g.native[control][target] else false
  else false

theorem adjacent_self (g : Graph) (q : Qubit) : g.adjacent q q = false := by
  by_cases h : q < g.size
  · simp [adjacent, h, g.loopless q h]
  · simp [adjacent, h]

theorem lt_of_adjacent {g : Graph} {c t : Qubit} (h : g.adjacent c t = true) :
    c < g.size ∧ t < g.size := by
  by_cases hc : c < g.size <;> by_cases ht : t < g.size <;> simp_all [adjacent]

@[simp] theorem size_tabulate (n : Nat) (edge : Qubit → Qubit → Bool) :
    (tabulate n edge).size = n := rfl

theorem adjacent_tabulate (n : Nat) (edge : Qubit → Qubit → Bool) (c t : Qubit) :
    (tabulate n edge).adjacent c t = (decide (c < n ∧ t < n ∧ c ≠ t) && edge c t) := by
  unfold adjacent
  by_cases hc : c < n <;> by_cases ht : t < n <;> simp [tabulate, hc, ht, bne]
  by_cases he : c = t <;> simp [he]

theorem ext_adjacent {g h : Graph} (hs : g.size = h.size)
    (ha : ∀ c t, g.adjacent c t = h.adjacent c t) : g = h := by
  obtain ⟨n, a, la⟩ := g
  obtain ⟨m, b, lb⟩ := h
  obtain rfl : n = m := hs
  congr
  apply Vector.ext
  intro i hi
  apply Vector.ext
  intro j hj
  have := ha i j
  simpa [adjacent, hi, hj] using this

def coupled (g : Graph) (a b : Qubit) : Bool := g.adjacent a b || g.adjacent b a

def qubits (g : Graph) : List Qubit := List.range g.size

def orderedPairs (n : Nat) : List (Qubit × Qubit) :=
  (List.range n).flatMap fun v => ((List.range n).filter (· ≠ v)).map (v, ·)

def edges (g : Graph) : List (Qubit × Qubit) :=
  (orderedPairs g.size).filter fun (c, t) => g.adjacent c t

def edgeCount (g : Graph) : Nat := g.edges.length

def edgeFault? (n : Nat) : List (Qubit × Qubit) → Option RoutingError
  | [] => none
  | (c, t) :: rest =>
    if n ≤ c then some (.offDevice c n)
    else if n ≤ t then some (.offDevice t n)
    else if c = t then some (.graph (.selfLoop c))
    else edgeFault? n rest

def countable (n : Nat) : Bool := fitsBlock 1 (n * n)

def ofEdges (n : Nat) (edges : List (Qubit × Qubit)) : Except RoutingError Graph :=
  if !countable n then .error (.defect .overflow)
  else match edgeFault? n edges with
    | some e => .error e
    | none => .ok (tabulate n fun c t => edges.contains (c, t))

end Graph

end QubitRouting
