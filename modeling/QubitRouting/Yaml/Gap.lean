import QubitRouting.Yaml.Glyph

/-!
Gaps between the words of a scalar. A scalar may run over several lines; how a gap reads depends
only on the line breaks in it when it has any, and on its blanks when it has none.
-/

namespace QubitRouting.Yaml

inductive Gap where
  /-- Blanks on one line, latest first. -/
  | blanks (chars : List Char)
  /-- The first line break, unless a backslash took it away, and the others, latest first. -/
  | breaks (first : Option Char) (others : List Char)
  deriving DecidableEq, Repr, Inhabited

namespace Gap

def empty : Gap := .blanks []

def hasBreak : Gap → Bool
  | .blanks _ => false
  | .breaks _ _ => true

/-- The gap with one more blank or line break at its end. Blanks beside a line break are lost. -/
def add (c : Char) : Gap → Gap
  | .blanks chars => if isBreak c then .breaks (some c) [] else .blanks (c :: chars)
  | .breaks first others => .breaks first (if isBreak c then c :: others else others)

/-- What the gap reads as, latest character first: a single line feed is a space, and of several
line feeds the first is lost. -/
def text : Gap → List Char
  | .blanks chars => chars
  | .breaks (some '\n') [] => [' ']
  | .breaks (some '\n') others => others
  | .breaks first others => others ++ first.toList

end Gap

end QubitRouting.Yaml
