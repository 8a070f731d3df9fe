import QubitRouting.Device.Description
import QubitRouting.Table.Basic

/-!
The text form of a routing table: the description of its graph, the matrix of its costs, and the
path of every ordered pair, row by row. Reading what was written gives the same table.
-/

namespace QubitRouting.RoutingTable

open Text (Rows)

def pathRow (p : Path) : String := " ".intercalate (pathMarker :: p.map Move.text)

def cacheText (t : RoutingTable) : String :=
  let costRow (row : List Nat) : String := " ".intercalate (row.map toString)
  String.join (t.graph.text ::
    (t.costMatrix.map costRow ++ t.entries.map fun e => pathRow e.2.path).map (· ++ "\n"))

def readNumber (line : Nat) (word : List Char) : Except RoutingError Nat :=
  match Text.word? word with
  | some n => .ok n
  | none => .error (.row line (.badNumber (String.ofList word)))

def readOperand (line size : Nat) (word : List Char) : Except RoutingError Qubit := do
  let q ← readNumber line word
  if q < size then return q else throw (.offDevice q size)

def readMoves (line size : Nat) : List (List Char) → Except RoutingError Path
  | [] => .ok []
  | word :: rest =>
    let name := String.ofList word
    match Move.Shape.ofName? name with
    | none => .error (.row line (.unknownMove name))
    | some shape =>
      if rest.length < shape.arity then .error (.row line (.fewOperands name shape.arity))
      else do
        let operands ← (rest.take shape.arity).mapM (readOperand line size)
        match shape.withOperands? operands with
        | none => throw (.row line (.fewOperands name shape.arity))
        | some m => return m :: (← readMoves line size (rest.drop shape.arity))
termination_by words => words.length
decreasing_by
  rw [List.length_drop, List.length_cons]
  omega

def readPath (line size : Nat) : List (List Char) → Except RoutingError Path
  | [] => .error (.row line .emptyPath)
  | word :: rest =>
    if word ≠ pathMarker.toList then .error (.row line (.noMarker (String.ofList word)))
    else if rest = [] then .error (.row line .emptyPath)
    else readMoves line size rest

/-- One path row for each of the pairs; the costs come from the matrix that was read before. -/
def readEntries (size : Nat) (costs : Array (Array Nat)) : (pairs : List (Qubit × Qubit)) → Rows →
    Except RoutingError
      ({ es : List ((Qubit × Qubit) × RoutingEntry) // es.map Prod.fst = pairs } × Rows)
  | [], r => .ok (⟨[], rfl⟩, r)
  | (v, w) :: rest, r => do
    let (row, r) ← r.next .path
    let path ← readPath row.line size row.words
    let cost := ((costs[v]?.getD #[])[w]?).getD 0
    let (⟨es, h⟩, r) ← readEntries size costs rest r
    return (⟨((v, w), ⟨cost, path⟩) :: es, by simp [h]⟩, r)

def ofCacheText (text : String) : Except RoutingError RoutingTable := do
  let (g, r) ← Graph.read (Rows.ofText text)
  let (costs, r) ← r.matrix .cost g.size (fun _ line _ word => readNumber line word) g.size
  let table := (costs.map List.toArray).toArray
  let (⟨entries, covers⟩, r) ← readEntries g.size table (Graph.orderedPairs g.size) r
  r.finish
  return ⟨g, entries, covers⟩

end QubitRouting.RoutingTable
