/-!
Whole numbers. Words have 32 bits, longs have 64; a block of memory has fewer bytes than half the
number of longs. A number is written in decimal digits, in YAML also in hexadecimal, octal or binary
ones, with a plus sign in front of them if the writer likes.
-/

namespace QubitRouting

/-- Words are the numbers below this one. -/
abbrev wordBound : Nat := 4294967296

abbrev longBound : Nat := 18446744073709551616

def wordBytes : Nat := 4

def longBytes : Nat := 8

def fitsBlock (bytes entries : Nat) : Bool := bytes * entries < longBound / 2

theorem fitsBlock_of_le {bytes entries most : Nat} (hle : entries ≤ most)
    (h : fitsBlock bytes most = true) : fitsBlock bytes entries = true := by
  have hblock : bytes * entries ≤ bytes * most := Nat.mul_le_mul_left bytes hle
  exact decide_eq_true (Nat.lt_of_le_of_lt hblock (of_decide_eq_true h))

namespace Text

def digitsValue (digits : List Char) : Nat :=
  digits.foldl (fun n c => n * 10 + (c.toNat - '0'.toNat)) 0

def hexDigit? (c : Char) : Option Nat :=
  if c.isDigit then some (c.toNat - '0'.toNat)
  else if 'a' ≤ c ∧ c ≤ 'f' then some (c.toNat - 'a'.toNat + 10)
  else if 'A' ≤ c ∧ c ≤ 'F' then some (c.toNat - 'A'.toNat + 10)
  else none

def unsigned : List Char → List Char
  | '+' :: rest => rest
  | text => text

def natBelow? (bound : Nat) (text : List Char) : Option Nat :=
  let digits := unsigned text
  if digits ≠ [] ∧ digits.all Char.isDigit ∧ digitsValue digits < bound then
    some (digitsValue digits)
  else none

def word? (text : List Char) : Option Nat := natBelow? wordBound text

def long? (text : List Char) : Option Nat := natBelow? longBound text

end Text

namespace Yaml

def digitIn? (base : Nat) (c : Char) : Option Nat := do
  let d ← Text.hexDigit? c
  if d < base then some d else none

def digitsIn? (base : Nat) (digits : List Char) : Option Nat := do
  if digits.isEmpty then none
  let values ← digits.mapM (digitIn? base)
  return values.foldl (fun n d => n * base + d) 0

/-- A number without sign. A decimal one does not start with a zero that could be left out. -/
def magnitude? : List Char → Option Nat
  | '0' :: 'x' :: rest => digitsIn? 16 rest
  | '0' :: 'o' :: rest => digitsIn? 8 rest
  | '0' :: 'b' :: rest => digitsIn? 2 rest
  | '0' :: _ :: _ => none
  | digits => digitsIn? 10 digits

def long? (text : List Char) : Option Nat :=
  (magnitude? (Text.unsigned text)).filter (· < longBound)

end Yaml

end QubitRouting
