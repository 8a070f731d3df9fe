import QubitRouting.Json.Value
import QubitRouting.Number

/-!
Numbers of JSON text. Exact ones fit 64 bits; the others are kept as they are written, and denote a
number as long as reading them as a double does not overflow.
-/

namespace QubitRouting.Json

structure Numeral where
  negative : Bool
  whole : List Char
  fraction : Option (List Char)
  /-- Whether there is a minus in front of the exponent, and its digits. -/
  exponent : Option (Bool × List Char)
  deriving DecidableEq, Repr, Inhabited

namespace Numeral

def digits? (raw : List Char) : Option (List Char × List Char) :=
  let digits := raw.takeWhile Char.isDigit
  if digits.isEmpty then none else some (digits, raw.dropWhile Char.isDigit)

def sign : List Char → Bool × List Char
  | '+' :: rest => (false, rest)
  | '-' :: rest => (true, rest)
  | rest => (false, rest)

def withExponent? (n : Numeral) : List Char → Option Numeral
  | [] => some n
  | c :: rest => do
    if c ≠ 'e' ∧ c ≠ 'E' then none
    let (negative, rest) := sign rest
    let (digits, rest) ← digits? rest
    if rest.isEmpty then some { n with exponent := some (negative, digits) } else none

def ofText? (raw : List Char) : Option Numeral := do
  let (negative, unsigned) := match raw with
    | '-' :: rest => (true, rest)
    | rest => (false, rest)
  let (whole, rest) ← digits? unsigned
  if whole.length > 1 ∧ whole.head? = some '0' then none
  match rest with
  | '.' :: rest => do
    let (fraction, rest) ← digits? rest
    withExponent? ⟨negative, whole, some fraction, none⟩ rest
  | rest => withExponent? ⟨negative, whole, none, none⟩ rest

/-- Digits after the number `n` as long as it fits 64 bits, and the digits that are left. -/
def gather (n : Nat) : List Char → Nat × List Char
  | [] => (n, [])
  | c :: rest =>
    let next := n * 10 + (c.toNat - '0'.toNat)
    if next < longBound then gather next rest else (n, c :: rest)

/-- The digits that count and the power of ten they are multiplied by, without the exponent. -/
def scaled (n : Numeral) : Nat × Int :=
  let fraction := n.fraction.getD []
  let (whole, left) := gather 0 n.whole
  let (significand, lost) := gather whole fraction
  (significand, (left.length : Int) - ((fraction.length - lost.length : Nat) : Int))

/-- The nearest number with 53 binary digits; of two the one with an even last digit. -/
def toDouble (n : Nat) : Nat :=
  let unit := Nat.pow 2 (n.log2 - 52)
  let floor := n / unit
  let rest := n % unit
  (if unit < 2 * rest ∨ (unit = 2 * rest ∧ floor % 2 = 1) then floor + 1 else floor) * unit

/-- From here on a product is rounded up beyond all doubles. -/
def overflowBound : Nat := Nat.pow 2 1024 - Nat.pow 2 970

/-- The largest power of ten that is a double, and the largest exponent that is read. -/
def maxPower : Nat := 308
def maxExponent : Nat := 2147483647

def overflows (n : Numeral) : Bool :=
  let (significand, power) := n.scaled
  let (negative, digits) := n.exponent.getD (false, [])
  let exponent := Text.digitsValue digits
  if maxExponent < exponent then significand ≠ 0 && !negative
  else
    let power := if negative then power - exponent else power + exponent
    if significand = 0 || power < 0 then false
    else if maxPower < power then true
    else overflowBound ≤ toDouble significand * toDouble (Nat.pow 10 power.toNat)

end Numeral

/-- A number is exact when it has neither fraction nor exponent and fits 64 bits; minus zero does
not count as exact. -/
def number? (raw : List Char) : Option Json := do
  let n ← Numeral.ofText? raw
  let value := Text.digitsValue n.whole
  let exact := n.fraction.isNone && n.exponent.isNone &&
    if n.negative then 0 < value && value ≤ longBound / 2 else value < longBound
  if exact then return .int (if n.negative then -(value : Int) else value)
  else return if n.overflows then .malformed else .real (String.ofList raw)

end QubitRouting.Json
