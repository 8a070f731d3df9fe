import QubitRouting.Circuit.Basic
import QubitRouting.Json.Decode

/-!
Circuits as JSON records. Empty lists of controls are not written; a missing name, list of gates,
list of controls, polarity or adjoint mark is read as its default, and unknown fields are ignored.
-/

namespace QubitRouting

def Axis.ofName? : String → Option Axis
  | "x" => some .x
  | "y" => some .y
  | "z" => some .z
  | _ => none

def Axis.ofJson? (j : Json) : Option Axis := j.alternative? Json.isNull >>= Axis.ofName?

namespace GateKind

def toJson : GateKind → Json
  | .toffoli => .obj [("type", .str "toffoli")]
  | .hadamard => .obj [("type", .str "hadamard")]
  | .pauli axis root adjoint =>
    .obj [("type", .str "pauli"), ("axis", .str axis.name), ("root", .nat root),
      ("adjoint", .bool adjoint)]
  | .v adjoint => .obj [("type", .str "v"), ("adjoint", .bool adjoint)]

def untag? : Json → Option (String × Json)
  | .obj fields => do
    let tag ← Json.required Json.str? (← Json.field? fields "type")
    return (tag, .obj (fields.filter (·.1 ≠ "type")))
  | .arr (tag :: rest) => do return (← tag.str?, .arr rest)
  | _ => none

def plain? : Json → Option Unit
  | .obj _ => some ()
  | .arr [] => some ()
  | _ => none

def axis? (j : Json) : Option Axis := j.alternative? Json.isBlank >>= Axis.ofName?

/-- A kind is read as a whole before its tag is looked at, so no part of it may be malformed. -/
def ofJson? (j : Json) : Option GateKind := do
  if !j.isSound then none
  let (tag, parameters) ← untag? j
  match tag with
  | "toffoli" =>
    plain? parameters
    return .toffoli
  | "hadamard" =>
    plain? parameters
    return .hadamard
  | "pauli" =>
    match ← parameters.record? ["axis", "root", "adjoint"] with
    | [axis, root, adjoint] =>
      return .pauli (← Json.required axis? axis) (← Json.required Json.word? root)
        (← Json.optional false Json.bool? adjoint)
    | _ => none
  | "v" =>
    match ← parameters.record? ["adjoint"] with
    | [adjoint] => return .v (← Json.optional false Json.bool? adjoint)
    | _ => none
  | _ => none

end GateKind

namespace Control

def toJson (c : Control) : Json := .obj [("line", .nat c.line), ("polarity", .bool c.positive)]

def ofJson? (j : Json) : Option Control := do
  match ← j.record? ["line", "polarity"] with
  | [line, polarity] =>
    return ⟨← Json.required Json.word? line, ← Json.optional true Json.bool? polarity⟩
  | _ => none

end Control

namespace Gate

def toJson (g : Gate) : Json :=
  .obj ([("kind", g.kind.toJson)] ++
    (if g.controls.isEmpty then [] else [("controls", .arr (g.controls.map Control.toJson))]) ++
    [("targets", .arr (g.targets.map Json.nat))])

def ofJson? (j : Json) : Option Gate := do
  match ← j.record? ["kind", "controls", "targets"] with
  | [kind, controls, targets] =>
    return ⟨← Json.required GateKind.ofJson? kind,
      ← Json.optional [] (Json.list? Control.ofJson?) controls,
      ← Json.required (Json.list? Json.word?) targets⟩
  | _ => none

end Gate

namespace Circuit

def toJson (c : Circuit) : Json :=
  .obj [("name", .str c.name), ("num_lines", .nat c.lines),
    ("gates", .arr (c.gates.map Gate.toJson))]

def ofJson? (j : Json) : Option Circuit := do
  match ← j.record? ["name", "num_lines", "gates"] with
  | [name, lines, gates] =>
    return ⟨← Json.optional defaultName Json.str? name, ← Json.required Json.word? lines,
      ← Json.optional [] (Json.list? Gate.ofJson?) gates⟩
  | _ => none

end Circuit

end QubitRouting
