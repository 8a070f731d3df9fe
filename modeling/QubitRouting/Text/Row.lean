import QubitRouting.Text.Blank

/-!
Rows of a text: its lines that are neither blank nor comments, split into words. All text formats
for devices are read from rows, so blank lines, comments and spacing never matter to them.
-/

namespace QubitRouting.Text

/-- A line with something on it. Lines are counted from one. -/
structure Row where
  line : Nat
  words : List (List Char)
  deriving DecidableEq, Repr

/-- Blank lines and lines that start with `#` hold no row. -/
def isSignificant (line : List Char) : Bool :=
  match trim line with
  | [] => false
  | c :: _ => c ≠ '#'

def numberedRows (first : Nat) : List (List Char) → List Row
  | [] => []
  | line :: rest =>
    if isSignificant line then ⟨first, words line⟩ :: numberedRows (first + 1) rest
    else numberedRows (first + 1) rest

structure Rows where
  rows : List Row
  lineCount : Nat
  deriving DecidableEq, Repr

def Rows.ofText (text : String) : Rows :=
  let lines := lines text.toList
  ⟨numberedRows 1 lines, lines.length⟩

end QubitRouting.Text
