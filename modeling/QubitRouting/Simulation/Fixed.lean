/-!
Floating point numbers in fixed notation, rounded from their exact value: to the nearest decimal,
and of two that are equally near to the even one.
-/

namespace QubitRouting

/-- A finite binary number, `±m · 2^e`. -/
structure Binary where
  negative : Bool
  mantissa : Nat
  exponent : Int
  deriving DecidableEq, Repr

def fractionBound : Nat := 4503599627370496

/-- The value of a number of 64 bits, of which 52 are the fraction and 11 the exponent; none for
infinities and NaN. -/
def Binary.ofBits? (bits : Nat) : Option Binary :=
  let negative := bits.testBit 63
  let biased : Nat := bits / fractionBound % 2048
  let fraction := bits % fractionBound
  if biased = 2047 then none
  else if biased = 0 then some ⟨negative, fraction, -1074⟩
  else some ⟨negative, fraction + fractionBound, (biased : Int) - 1075⟩

def roundHalfEven (num den : Nat) : Nat :=
  let q := num / den
  let r := num % den
  if 2 * r < den then q
  else if 2 * r > den then q + 1
  else if q % 2 = 0 then q else q + 1

def Binary.units (b : Binary) (places : Nat) : Nat :=
  if 0 ≤ b.exponent then b.mantissa * Nat.pow 2 b.exponent.toNat * Nat.pow 10 places
  else roundHalfEven (b.mantissa * Nat.pow 10 places) (Nat.pow 2 (-b.exponent).toNat)

def padZeros (width : Nat) (text : String) : String :=
  String.ofList (List.replicate (width - text.length) '0') ++ text

def Binary.fixed (b : Binary) (places : Nat) : String :=
  let units := b.units places
  let one := Nat.pow 10 places
  let sign := if b.negative && units ≠ 0 then "-" else ""
  sign ++ toString (units / one) ++ "." ++ padZeros places (toString (units % one))

def fixedText (x : Float) (places : Nat) : String :=
  match Binary.ofBits? x.toBits.toNat with
  | some b => b.fixed places
  | none => if x.isNaN then "NaN" else if x > 0 then "inf" else "-inf"

end QubitRouting
