import QubitRouting.Yaml.Gap

/-!
Block scalars: indented lines after a bar, which keep their ends, or after an angle bracket, which
are folded. The header may say how deep the lines are indented and what becomes of the last end.
-/

namespace QubitRouting.Yaml.Block

/-- What becomes of the line breaks at the end: all are dropped, the first is kept, or all are. -/
inductive Chomp where
  | strip
  | clip
  | keep
  deriving DecidableEq, Repr, Inhabited

structure Header where
  chomp : Chomp
  indent : Option Nat
  deriving DecidableEq, Repr, Inhabited

def chomp? (g : Glyph) : Option Chomp :=
  if g.char = '+' then some .keep else if g.char = '-' then some .strip else none

def digit? (g : Glyph) : Option Nat :=
  if g.char.isDigit then some (g.char.toNat - '0'.toNat) else none

/-- The header in front of a text: a sign and a digit in either order, both of them optional. -/
def header (text : List Glyph) : Header × List Glyph :=
  match text with
  | [] => (⟨.clip, none⟩, [])
  | g :: rest =>
    match chomp? g, digit? g with
    | some chomp, _ =>
      match rest.head? >>= digit? with
      | some n => (⟨chomp, some n⟩, rest.drop 1)
      | none => (⟨chomp, none⟩, rest)
    | none, some n =>
      match rest.head? >>= chomp? with
      | some chomp => (⟨chomp, some n⟩, rest.drop 1)
      | none => (⟨.clip, some n⟩, rest)
    | none, none => (⟨.clip, none⟩, text)

structure Margin where
  breaks : List Char
  deepest : Nat
  rest : List Glyph
  deriving Repr, Inhabited

/-- Skips spaces up to the column `indent`, or all where none is given, and empty lines. A tab among
these spaces is a fault. -/
def margin? (indent : Option Nat) (breaks : List Char) (deepest : Nat) :
    List Glyph → Option Margin
  | [] => some ⟨breaks, deepest, []⟩
  | g :: rest =>
    let before := indent.all (g.column < ·)
    if before && g.char = ' ' then margin? indent breaks deepest rest
    else if before && g.char = '\t' then none
    else if g.isBreak then margin? indent (g.char :: breaks) (max deepest g.column) rest
    else some ⟨breaks, max deepest g.column, g :: rest⟩

structure Lines where
  text : List Char
  /-- The break that ended the last line, and those of the empty lines after it. -/
  last : Option Char
  others : List Char
  /-- Whether the last line starts with a blank. Such lines are not folded. -/
  blankStart : Bool
  deriving Repr, Inhabited

def Lines.join (folded : Bool) (s : Lines) (startsBlank : Bool) : List Char :=
  if folded && s.last = some '\n' && !s.blankStart && !startsBlank then
    (if s.others = [] then [' '] else s.others) ++ s.text
  else s.others ++ (s.last.toList ++ s.text)

def lines? (folded : Bool) (indent : Nat) (s : Lines) (inLine : Bool) :
    List Glyph → Option (Lines × List Glyph)
  | [] => some (s, [])
  | g :: rest =>
    if inLine then
      if g.isBreak then lines? folded indent { s with last := some g.char, others := [] } false rest
      else lines? folded indent { s with text := g.char :: s.text } true rest
    else if g.column < indent && g.char = ' ' then lines? folded indent s false rest
    else if g.column < indent && g.char = '\t' then none
    else if g.isBreak then
      lines? folded indent { s with others := g.char :: s.others } false rest
    else if g.column = indent then
      lines? folded indent ⟨g.char :: s.join folded g.isBlank, none, [], g.isBlank⟩ true rest
    else some (s, g :: rest)

def Lines.chomped (s : Lines) : Chomp → List Char
  | .strip => s.text.reverse
  | .clip => (s.last.toList ++ s.text).reverse
  | .keep => (s.others ++ (s.last.toList ++ s.text)).reverse

/-- The text after a bar or an angle bracket, and what follows it. `parent` is the column of the
innermost block collection, if one is open. -/
def read? (folded : Bool) (parent : Option Nat) (text : List Glyph) :
    Option (List Char × List Glyph) := do
  let (header, rest) := header text
  if header.indent = some 0 then none
  let given := header.indent.map (parent.getD 0 + ·)
  let m ← margin? given [] 0 (← nextLine? rest)
  let indent := given.getD (max m.deepest (max 1 (parent.elim 0 (· + 1))))
  let (s, rest) ← lines? folded indent ⟨[], none, m.breaks, false⟩ false m.rest
  return (s.chomped header.chomp, rest)

end QubitRouting.Yaml.Block
