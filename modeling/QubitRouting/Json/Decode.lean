import QubitRouting.Json.Value
import QubitRouting.Number

/-!
Reading values out of JSON trees. A decoder answers none when the tree does not have its form; the
kind of misfit is not told apart.
-/

namespace QubitRouting.Json

def bool? : Json → Option Bool
  | .bool b => some b
  | _ => none

def str? : Json → Option String
  | .str s => some s
  | _ => none

def arr? : Json → Option (List Json)
  | .arr items => some items
  | _ => none

def natBelow? (bound : Nat) : Json → Option Nat
  | .int i => if 0 ≤ i ∧ i < bound then some i.toNat else none
  | _ => none

def word? : Json → Option Nat := natBelow? wordBound

def long? : Json → Option Nat := natBelow? longBound

def list? (decode : Json → Option α) (j : Json) : Option (List α) := do
  (← j.arr?).mapM decode

def isNull : Json → Bool
  | .null => true
  | _ => false

def isBlank : Json → Bool
  | .null => true
  | .obj [] => true
  | _ => false

/-- An alternative without contents: its name, or an object that maps the name to nothing. -/
def alternative? (isNothing : Json → Bool) : Json → Option String
  | .str name => some name
  | .obj [(name, j)] => if isNothing j then some name else none
  | _ => none

/-- What a record holds under `key`: the outer option fails on a repeated key, the inner one is
empty when the key is absent. -/
def field? (fields : List (String × Json)) (key : String) : Option (Option Json) :=
  match fields.filter (·.1 == key) with
  | [] => some none
  | [(_, j)] => some (some j)
  | _ => none

/-- The fields of a record in the order of `keys`. A record is an object, whose other keys are
ignored, or the list of its leading fields. -/
def record? (keys : List String) : Json → Option (List (Option Json))
  | .obj fields => keys.mapM (field? fields)
  | .arr items =>
    if items.length ≤ keys.length then
      some (items.map some ++ List.replicate (keys.length - items.length) none)
    else none
  | _ => none

def required (decode : Json → Option α) : Option Json → Option α
  | none => none
  | some j => decode j

def optional (default : α) (decode : Json → Option α) : Option Json → Option α
  | none => some default
  | some j => decode j

end QubitRouting.Json
