/-!
Tokens of YAML text. Block collections are tokens too: they open where the indentation of their
first entry says so and close where a line is indented less.
-/

namespace QubitRouting.Yaml

inductive Style where
  | plain
  | single
  | double
  | literal
  | folded
  deriving DecidableEq, Repr, Inhabited

/-- The bytes of a tag. Escapes in it may write bytes that are no text. -/
abbrev Tag := List UInt8

inductive Token where
  | version (major minor : Nat)
  | handle (name : String) (meaning : Tag)
  | documentStart
  | documentEnd
  | blockSequence
  | blockMapping
  | blockEnd
  | openBracket
  | closeBracket
  | openBrace
  | closeBrace
  | comma
  | dash
  | key
  | value
  | reference (anchor : String)
  | anchor (name : String)
  | tag (handle : String) (ending : Tag)
  | scalar (style : Style) (text : String)
  deriving DecidableEq, Repr, Inhabited

end QubitRouting.Yaml
