import QubitRouting.Settings.Basic
import QubitRouting.Yaml.Document
import QubitRouting.Number

/-!
Settings from YAML. Keys that are no setting are passed over with their values, whatever these are.
-/

namespace QubitRouting.Settings

open Yaml (Document Node Tag)

def integerTag : Tag := .ofText "tag:yaml.org,2002:int".toList
def nullTag : Tag := .ofText "tag:yaml.org,2002:null".toList

def isNullWord (text : String) : Bool := ["null", "Null", "NULL", "~"].contains text

/-- A 64-bit number, which is not quoted; a literal block may hold one when its tag says so. -/
def long? : Node → Option Nat
  | .scalar s =>
    if s.style = .plain ∨ (s.style = .literal ∧ s.tag = some integerTag) then
      Yaml.long? s.text.toList
    else none
  | _ => none

def longOrNull? (node : Node) : Option (Option Nat) :=
  match node with
  | .scalar ⟨none, .plain, text⟩ =>
    if text = "" ∨ isNullWord text then some none else some <$> long? node
  | .scalar ⟨some tag, .plain, text⟩ =>
    if tag = nullTag then (if isNullWord text then some none else none)
    else some <$> long? node
  | _ => some <$> long? node

/-- A variant: as a local tag of nothing, or as text in any style under any other tag. -/
def variantOf? : Node → Option Variant
  | .scalar s =>
    match s.tag >>= Tag.localName? with
    | some name =>
      if s.style = .plain ∧ (s.text = "" ∨ isNullWord s.text) then Variant.ofExactName? name
      else none
    | none => Variant.ofExactName? s.text
  | _ => none

def keyText? : Node → Option String
  | .scalar s => some s.text
  | _ => none

def setting (entries : List (String × Node)) (name : String) (without : α)
    (read : Node → Option α) : Option α :=
  match entries.filter (·.1 == name) with
  | [] => some without
  | [(_, node)] => read node
  | _ => none

def ofEntries? (d : Document) (entries : List (Node × Node)) : Option Settings := do
  let entries ← entries.mapM fun (key, value) => do
    return (← keyText? (d.follow key), d.follow value)
  return ⟨← setting entries "placement_slack" default.placementSlack long?,
    ← setting entries "exhaustive_limit" default.exhaustiveLimit long?,
    ← setting entries "max_relay_moves" default.maxRelayMoves longOrNull?,
    ← setting entries "fixed5_variant" default.variant variantOf?⟩

def ofDocument? : Option Document → Option Settings
  | none => some default
  | some d =>
    match d.root with
    | .mapping entries => ofEntries? d entries
    | .scalar s => if s.style = .plain ∧ s.text = "" then some default else none
    | _ => none

end QubitRouting.Settings
