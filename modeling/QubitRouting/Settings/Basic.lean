import QubitRouting.Template.Method
import QubitRouting.Json.Decode

/-!
The settings of a session and the limits on them.
-/

namespace QubitRouting

def Variant.ofJson? (j : Json) : Option Variant :=
  j.alternative? Json.isNull >>= Variant.ofExactName?

structure Settings where
  /-- How far above the least estimate a layout may be and still be routed. -/
  placementSlack : Nat
  exhaustiveLimit : Nat
  maxRelayMoves : Option Nat
  variant : Variant
  deriving DecidableEq, Repr, Inhabited

namespace Settings

def default : Settings := ⟨10, 5, none, .template⟩

def maxExhaustiveLimit : Nat := 8

def check (s : Settings) : Except RoutingError Unit :=
  if s.exhaustiveLimit > maxExhaustiveLimit then
    .error (.settings (.exhaustiveLimit s.exhaustiveLimit maxExhaustiveLimit))
  else if s.maxRelayMoves = some 0 then .error (.settings .noRelayMoves)
  else .ok ()

def toJson (s : Settings) : Json :=
  .obj [("placement_slack", .nat s.placementSlack), ("exhaustive_limit", .nat s.exhaustiveLimit),
    ("max_relay_moves", Json.ofOption Json.nat s.maxRelayMoves),
    ("fixed5_variant", .str s.variant.name)]

def limit? : Json → Option (Option Nat)
  | .null => some none
  | j => j.long?.map some

def ofJson? (j : Json) : Option Settings := do
  match ← j.record? ["placement_slack", "exhaustive_limit", "max_relay_moves",
    "fixed5_variant"] with
  | [slack, limit, relays, variant] =>
    return ⟨← Json.optional default.placementSlack Json.long? slack,
      ← Json.optional default.exhaustiveLimit Json.long? limit,
      ← Json.optional none limit? relays,
      ← Json.optional default.variant Variant.ofJson? variant⟩
  | _ => none

end Settings

end QubitRouting
