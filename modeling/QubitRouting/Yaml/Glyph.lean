/-!
Characters of YAML text with their places. Lines and columns say how deep a token is indented and
whether a key has run over the end of its line, so the text is placed once, before it is read.
-/

namespace QubitRouting.Yaml

/-- The line breaks of placed text; `place` writes every other one as a line feed. -/
def isBreak (c : Char) : Bool := c = '\n' || c = '\u2028' || c = '\u2029'

def isBlank (c : Char) : Bool := c = ' ' || c = '\t'

/-- The characters that YAML text may contain: of the control characters only tabs and ends of
lines. -/
def isAllowed (c : Char) : Bool :=
  c = '\t' || c = '\n' || c = '\r' || c = '\u0085' || (' ' ≤ c && c ≤ '~') ||
    ('\u00a0' ≤ c && c ≠ '\ufffe' && c ≠ '\uffff')

def isNameChar (c : Char) : Bool := c.isAlphanum || c = '_' || c = '-'

/-- A character with its line and column, both counted from zero. -/
structure Glyph where
  char : Char
  line : Nat
  column : Nat
  /-- How many bytes of the line stand before it. -/
  offset : Nat
  deriving DecidableEq, Repr, Inhabited

namespace Glyph

def isBreak (g : Glyph) : Bool := Yaml.isBreak g.char
def isBlank (g : Glyph) : Bool := Yaml.isBlank g.char

def separates (g : Glyph) : Bool := g.isBlank || g.isBreak

/-- A byte order mark at the start of a line, which takes a column and is part of no token. -/
def isOrderMark (g : Glyph) : Bool := g.char = '\ufeff' && g.column = 0

end Glyph

/-- The characters with their places. A carriage return, a line feed, both of them in this order,
and the next-line character are each one line feed. -/
def place (line column offset : Nat) : List Char → List Glyph
  | [] => []
  | '\r' :: '\n' :: rest => ⟨'\n', line, column, offset⟩ :: place (line + 1) 0 0 rest
  | c :: rest =>
    if c = '\r' || c = '\u0085' then ⟨'\n', line, column, offset⟩ :: place (line + 1) 0 0 rest
    else if isBreak c then ⟨c, line, column, offset⟩ :: place (line + 1) 0 0 rest
    else ⟨c, line, column, offset⟩ :: place line (column + 1) (offset + c.utf8Size) rest

def glyphs? (text : String) : Option (List Glyph) :=
  if text.toList.all isAllowed then some (place 0 0 0 text.toList) else none

def atSeparator (text : List Glyph) : Bool := text.head?.all Glyph.separates

/-- Three dashes or three dots alone at the start of a line, which begin and end documents. -/
def isDocumentMark : List Glyph → Bool
  | a :: b :: c :: rest =>
    a.column = 0 && (a.char = '-' || a.char = '.') && b.char = a.char && c.char = a.char &&
      atSeparator rest
  | _ => false

def name (text : List Glyph) : List Char × List Glyph :=
  ((text.takeWhile fun g => isNameChar g.char).map Glyph.char,
    text.dropWhile fun g => isNameChar g.char)

def skipBlanks (text : List Glyph) : List Glyph := text.dropWhile Glyph.isBlank

def nextLine? (text : List Glyph) : Option (List Glyph) :=
  match skipBlanks text with
  | [] => some []
  | g :: rest =>
    if g.isBreak then some rest
    else if g.char = '#' then some ((rest.dropWhile fun h => !h.isBreak).drop 1)
    else none

end QubitRouting.Yaml
