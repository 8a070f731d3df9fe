import QubitRouting.Device.Graph
import QubitRouting.Number
import QubitRouting.Text.Row

/-!
Reading rows one after the other. A row that is missing is reported for the line after the last
line of the text.
-/

namespace QubitRouting.Text.Rows

def next (kind : RowKind) (r : Rows) : Except RoutingError (Row × Rows) :=
  match r.rows with
  | [] => .error (.row (r.lineCount + 1) (.missing kind))
  | row :: rest => .ok (row, { r with rows := rest })

def finish (r : Rows) : Except RoutingError Unit :=
  match r.rows with
  | [] => .ok ()
  | row :: _ => .error (.row row.line .trailing)

def entries (n index : Nat) (entry : Nat → Nat → List Char → Except RoutingError α) (row : Row) :
    Except RoutingError (List α) :=
  if row.words.length ≠ n then .error (.sizeMismatch n index row.words.length)
  else row.words.zipIdx.mapM fun (word, column) => entry row.line column word

def matrix (kind : RowKind) (n : Nat)
    (entry : Nat → Nat → Nat → List Char → Except RoutingError α) :
    (left : Nat) → Rows → Except RoutingError (List (List α) × Rows)
  | 0, r => .ok ([], r)
  | left + 1, r => do
    let index := n - (left + 1)
    let (row, r) ← r.next kind
    let first ← entries n index (entry index) row
    let (rest, r) ← matrix kind n entry left r
    return (first :: rest, r)

end QubitRouting.Text.Rows
