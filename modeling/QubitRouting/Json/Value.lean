/-!
JSON values as trees. Objects keep their fields in writing order and may repeat a key; whether that
is acceptable is for the reader of the record to say. Text in the form of a value need not denote
one; it may stand where nobody reads it, so it has a place in the tree.
-/

namespace QubitRouting

inductive Json where
  | null
  | bool (value : Bool)
  | int (value : Int)
  /-- A number with a fraction or an exponent, or too large for 64 bits, as it was written. -/
  | real (text : String)
  | str (text : String)
  | arr (items : List Json)
  | obj (fields : List (String × Json))
  /-- Text in the form of a value that denotes none: half a surrogate pair in a string or a key, a
  number too large for a double, or brackets nested too deep. -/
  | malformed
  deriving Repr, Inhabited

namespace Json

def nat (n : Nat) : Json := .int n

def ofOption (f : α → Json) : Option α → Json
  | none => .null
  | some a => f a

def get? (key : String) : Json → Option Json
  | .obj fields => fields.lookup key
  | _ => none

mutual

def isSound : Json → Bool
  | .malformed => false
  | .arr items => areSound items
  | .obj fields => fieldsAreSound fields
  | _ => true

def areSound : List Json → Bool
  | [] => true
  | j :: rest => isSound j && areSound rest

def fieldsAreSound : List (String × Json) → Bool
  | [] => true
  | (_, j) :: rest => isSound j && fieldsAreSound rest

end

mutual

def sortKeys : Json → Json
  | .arr items => .arr (sortItems items)
  | .obj fields => .obj ((sortFields fields).mergeSort fun a b => a.1 ≤ b.1)
  | .null => .null
  | .bool b => .bool b
  | .int i => .int i
  | .real r => .real r
  | .str s => .str s
  | .malformed => .malformed

def sortItems : List Json → List Json
  | [] => []
  | j :: rest => sortKeys j :: sortItems rest

def sortFields : List (String × Json) → List (String × Json)
  | [] => []
  | (key, j) :: rest => (key, sortKeys j) :: sortFields rest

end

end Json

end QubitRouting
