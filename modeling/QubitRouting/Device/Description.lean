import QubitRouting.Device.RowReader

/-!
The text description of a graph: the number of qubits, then its matrix row by row, with 1 for a
native CNOT and 0 for none.
-/

namespace QubitRouting.Graph

open Text (Rows)

def text (g : Graph) : String :=
  let row (c : Qubit) : String :=
    " ".intercalate (g.qubits.map fun t => if g.adjacent c t then "1" else "0")
  String.join ((toString g.size :: g.qubits.map row).map (· ++ "\n"))

/-- An entry of the matrix; the diagonal holds zeros. -/
def readEntry (row line column : Nat) (word : List Char) : Except RoutingError Bool :=
  if word = ['0'] then .ok false
  else if word ≠ ['1'] then .error (.row line (.badEntry (String.ofList word)))
  else if row = column then .error (.graph (.selfLoop row))
  else .ok true

def lookup (rows : Array (Array Bool)) (row column : Nat) : Bool :=
  ((rows[row]?.getD #[])[column]?).getD false

def readSize (r : Rows) : Except RoutingError (Nat × Rows) := do
  let (header, r) ← r.next .count
  match header.words with
  | [word] =>
    match Text.long? word with
    | none => .error (.row header.line (.badCount (String.ofList word)))
    | some n => if countable n then return (n, r) else .error (.defect .overflow)
  | _ => .error (.row header.line .countNotAlone)

def read (r : Rows) : Except RoutingError (Graph × Rows) := do
  let (n, r) ← readSize r
  let (rows, r) ← r.matrix .adjacency n readEntry n
  let table := (rows.map List.toArray).toArray
  return (tabulate n (lookup table), r)

def parse (text : String) : Except RoutingError Graph := do
  let (g, r) ← read (Rows.ofText text)
  r.finish
  return g

end QubitRouting.Graph
