import QubitRouting.Yaml.Gap

/-!
Plain scalars: text without quotes. They end before a comment, a colon that separates, a document
mark, a line that is indented too little, and between brackets before brackets and commas.
-/

namespace QubitRouting.Yaml.Plain

def isBracketOrComma (c : Char) : Bool := ",[]\x7b\x7d".toList.contains c

/-- Whether a plain scalar may start here: not at a character that means something of its own. A
dash, a question mark and a colon mean something before a blank only, the latter two between
brackets always. -/
def starts (inFlow : Bool) (g : Glyph) (rest : List Glyph) : Bool :=
  if g.char = '-' then !(rest.head?.any Glyph.isBlank)
  else if g.char = '?' || g.char = ':' then !inFlow && !atSeparator rest
  else !(g.separates || isBracketOrComma g.char || "#&*!|>'\"%@\x60".toList.contains g.char)

structure Reading where
  text : List Char
  overLine : Bool
  rest : List Glyph
  deriving Repr, Inhabited

def ends (inFlow : Bool) (margin : Nat) (gap : Gap) (g : Glyph) (rest : List Glyph) : Bool :=
  isDocumentMark (g :: rest) || (g.char = '#' && gap ≠ .empty) ||
    (g.char = ':' && atSeparator rest) ||
    if inFlow then isBracketOrComma g.char else gap.hasBreak && g.column < margin

/-- Reads on after the characters `done`, latest first, and a gap. Further lines start at the column
`margin` or later, and no tab stands before it. -/
def readFrom (inFlow : Bool) (margin : Nat) (done : List Char) (gap : Gap) :
    List Glyph → Option Reading
  | [] => some ⟨done.reverse, gap.hasBreak, []⟩
  | g :: rest =>
    if g.separates then
      if g.char = '\t' && gap.hasBreak && g.column < margin then none
      else readFrom inFlow margin done (gap.add g.char) rest
    else if ends inFlow margin gap g rest then some ⟨done.reverse, gap.hasBreak, g :: rest⟩
    else if inFlow && g.char = ':' && rest.head?.any (fun h => h.char = '?' ||
        isBracketOrComma h.char) then none
    else readFrom inFlow margin (g.char :: (gap.text ++ done)) .empty rest

def read (inFlow : Bool) (margin : Nat) (text : List Glyph) : Option Reading :=
  readFrom inFlow margin [] .empty text

end QubitRouting.Yaml.Plain
