import QubitRouting.Json.Token

/-!
JSON text to a value. The parser is a fold of one step per token over a stack of open containers.
-/

namespace QubitRouting.Json

/-- A container that is still open, latest entry first. An object has no fields left to speak of
once a key of it has no text. -/
inductive Frame where
  | array (items : List Json)
  | object (fields : Option (List (String × Json)))
  /-- An object whose next value belongs to `key`. -/
  | field (fields : Option (List (String × Json))) (key : Option String)
  deriving Repr, Inhabited

inductive Want where
  | value
  /-- The start of an array: a value or the end. -/
  | firstItem
  /-- The start of an object: a key or the end. -/
  | firstKey
  | key
  | colon (key : Option String)
  /-- After an entry: a comma or the end. -/
  | separator
  | done (value : Json)
  deriving Repr, Inhabited

structure Parser where
  stack : List Frame
  want : Want
  deriving Repr, Inhabited

namespace Parser

def addField (fields : Option (List (String × Json))) (key : Option String) (value : Json) :
    Option (List (String × Json)) := do
  return (← key, value) :: (← fields)

def deliver (value : Json) : List Frame → Option Parser
  | [] => some ⟨[], .done value⟩
  | .array items :: rest => some ⟨.array (value :: items) :: rest, .separator⟩
  | .field fields key :: rest => some ⟨.object (addField fields key value) :: rest, .separator⟩
  | .object _ :: _ => none

def maxDepth : Nat := 127

/-- A container inside the open ones, which is malformed when they are too many. -/
def nested (value : Json) (outer : List Frame) : Json :=
  if (outer.drop (maxDepth - 1)).isEmpty then value else .malformed

def close (bracket : Token) : List Frame → Option Parser
  | .array items :: rest =>
    match bracket with
    | .closeBracket => deliver (nested (.arr items.reverse) rest) rest
    | _ => none
  | .object fields :: rest =>
    match bracket with
    | .closeBrace =>
      deliver (nested (fields.elim .malformed fun fields => .obj fields.reverse) rest) rest
    | _ => none
  | _ => none

def beginValue (stack : List Frame) : Token → Option Parser
  | .openBrace => some ⟨.object (some []) :: stack, .firstKey⟩
  | .openBracket => some ⟨.array [] :: stack, .firstItem⟩
  | .atom value => deliver value stack
  | .string text => deliver (text.elim .malformed .str) stack
  | _ => none

def beginKey (stack : List Frame) : Token → Option Parser
  | .string key => some ⟨stack, .colon key⟩
  | _ => none

def step (s : Parser) (t : Token) : Option Parser :=
  match s.want with
  | .value => beginValue s.stack t
  | .firstItem =>
    match t with
    | .closeBracket => close t s.stack
    | _ => beginValue s.stack t
  | .firstKey =>
    match t with
    | .closeBrace => close t s.stack
    | _ => beginKey s.stack t
  | .key => beginKey s.stack t
  | .colon key =>
    match t, s.stack with
    | .colon, .object fields :: rest => some ⟨.field fields key :: rest, .value⟩
    | _, _ => none
  | .separator =>
    match t, s.stack with
    | .comma, .array _ :: _ => some { s with want := .value }
    | .comma, .object _ :: _ => some { s with want := .key }
    | _, stack => close t stack
  | .done _ => none

def finish (s : Parser) : Option Json :=
  match s.want with
  | .done value => some value
  | _ => none

end Parser

def parse? (text : String) : Option Json := do
  let tokens ← Token.scan text.toList
  (← tokens.foldlM Parser.step ⟨[], .value⟩).finish

end QubitRouting.Json
