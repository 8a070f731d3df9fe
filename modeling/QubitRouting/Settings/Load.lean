import QubitRouting.Settings.Document
import QubitRouting.Number

/-!
Settings from a text and from variables. Variables win over the text, the text over the defaults.
-/

namespace QubitRouting.Settings

def ofText (text : String) : Except RoutingError Settings :=
  match Yaml.document? text >>= ofDocument? with
  | none => .error (.settings .unreadable)
  | some s => do
    s.check
    return s

def slackKey : String := "QXMAP_PLACEMENT_SLACK"
def limitKey : String := "QXMAP_EXHAUSTIVE_LIMIT"
def relaysKey : String := "QXMAP_MAX_RELAY_MOVES"
def variantKey : String := "QXMAP_FIXED5_VARIANT"

def number (key value : String) : Except RoutingError Nat :=
  match Text.long? (Text.trim value.toList) with
  | some n => .ok n
  | none => .error (.settings (.badVariable key value))

def valueOr (lookup : String → Option String) (key : String) (without : α)
    (read : String → Except RoutingError α) : Except RoutingError α :=
  match lookup key with
  | none => .ok without
  | some value => read value

/-- The settings with the variables that are set; the word `none` lifts the limit on relays. -/
def merge (s : Settings) (lookup : String → Option String) : Except RoutingError Settings := do
  let slack ← valueOr lookup slackKey s.placementSlack (number slackKey)
  let limit ← valueOr lookup limitKey s.exhaustiveLimit (number limitKey)
  let relays ← valueOr lookup relaysKey s.maxRelayMoves fun value =>
    if Text.lowerCase value = "none" then .ok none else some <$> number relaysKey value
  let variant ← valueOr lookup variantKey s.variant Variant.ofName
  return ⟨slack, limit, relays, variant⟩

def load (text : Option String) (lookup : String → Option String) :
    Except RoutingError Settings := do
  let base ← match text with
    | none => pure default
    | some text => ofText text
  let s ← base.merge lookup
  s.check
  return s

end QubitRouting.Settings
