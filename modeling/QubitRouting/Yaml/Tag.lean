import QubitRouting.Number
import QubitRouting.Yaml.Glyph
import QubitRouting.Yaml.Token

/-!
The tokens that start with a mark of their own and hold a name: anchors and references, tags, and
directives.
-/

namespace QubitRouting.Yaml

def anchorName? (text : List Glyph) : Option (String × List Glyph) :=
  let (chars, rest) := name text
  if chars ≠ [] ∧ rest.head?.all (fun g => g.separates || "?:,]\x7d%@\x60".toList.contains g.char)
  then some (String.ofList chars, rest)
  else none

/-- The characters of tags. Tags between angle brackets may have commas and square brackets too. -/
def isTagChar (bracketed : Bool) (c : Char) : Bool :=
  isNameChar c || ";/?:@&=+$.!~*'()".toList.contains c ||
    (bracketed && (c = ',' || c = '[' || c = ']'))

namespace Tag

def ofText (text : List Char) : Tag := (String.ofList text).toUTF8.toList

def localName? : Tag → Option String
  | [] => none
  | byte :: name =>
    if byte = '!'.toUInt8 then String.fromUTF8? ⟨name.toArray⟩ else none

def furtherBytes? (byte : Nat) : Option Nat :=
  if byte < 0x80 then some 0
  else if byte < 0xC0 then none
  else if byte < 0xE0 then some 1
  else if byte < 0xF0 then some 2
  else if byte < 0xF8 then some 3
  else none

/-- The rest of a tag, after the bytes `done`, latest first. A percent sign and two digits are a
byte; when a character is begun in this way, `left` of its bytes are missing. -/
def read? (bracketed : Bool) (left : Nat) (done : Tag) : List Glyph → Option (Tag × List Glyph)
  | [] => if left = 0 then some (done.reverse, []) else none
  | g :: rest =>
    if g.char = '%' then
      match rest with
      | a :: b :: after => do
        let byte := (← Text.hexDigit? a.char) * 16 + (← Text.hexDigit? b.char)
        let left ← match left with
          | 0 => furtherBytes? byte
          | left + 1 => if 0x80 ≤ byte ∧ byte < 0xC0 then some left else none
        read? bracketed left (byte.toUInt8 :: done) after
      | _ => none
    else if left ≠ 0 then none
    else if isTagChar bracketed g.char then
      read? bracketed 0 (g.char.toUInt8 :: done) rest
    else some (done.reverse, g :: rest)

def cut (t : Tag) : Tag := t.takeWhile (· ≠ 0)

end Tag

def handle (text : List Glyph) : List Char × List Glyph :=
  let (chars, rest) := name (text.drop 1)
  match rest with
  | g :: after => if g.char = '!' then ('!' :: chars ++ ['!'], after) else ('!' :: chars, rest)
  | [] => ('!' :: chars, [])

def tag? (inFlow : Bool) (text : List Glyph) : Option (Token × List Glyph) := do
  let (token, rest) ←
    if (text.drop 1).head?.any (·.char = '<') then do
      let (bytes, rest) ← Tag.read? true 0 [] (text.drop 2)
      if bytes ≠ [] ∧ rest.head?.any (·.char = '>') then
        some (Token.tag "" (Tag.cut bytes), rest.drop 1)
      else none
    else do
      let (mark, rest) := handle text
      let (bytes, rest) ← Tag.read? false 0 [] rest
      if 1 < mark.length ∧ mark.getLast? = some '!' then
        if bytes = [] then none
        else some (.tag (String.ofList mark) (Tag.cut bytes), rest)
      else
        match Tag.cut (Tag.ofText (mark.drop 1) ++ bytes) with
        | [] => some (.tag "" (Tag.ofText ['!']), rest)
        | ending => some (.tag "!" ending, rest)
  if atSeparator rest || (inFlow && rest.head?.any (·.char = ',')) then some (token, rest)
  else none

def versionPart? (text : List Glyph) : Option (Nat × List Glyph) :=
  let digits := (text.takeWhile fun g => g.char.isDigit).map Glyph.char
  if digits ≠ [] ∧ digits.length ≤ 9 then
    some (Text.digitsValue digits, text.dropWhile fun g => g.char.isDigit)
  else none

def version? (text : List Glyph) : Option (Token × List Glyph) := do
  let (major, rest) ← versionPart? (skipBlanks text)
  match rest with
  | g :: rest => do
    if g.char ≠ '.' then none
    let (minor, rest) ← versionPart? rest
    return (.version major minor, rest)
  | [] => none

def handleMeaning? (text : List Glyph) : Option (Token × List Glyph) := do
  let text := skipBlanks text
  if !text.head?.any (·.char = '!') then none
  let (mark, rest) := handle text
  if 1 < mark.length ∧ mark.getLast? ≠ some '!' then none
  if !rest.head?.any Glyph.isBlank then none
  let (meaning, rest) ← Tag.read? true 0 [] (skipBlanks rest)
  if meaning ≠ [] ∧ atSeparator rest then
    some (.handle (String.ofList mark) (Tag.cut meaning), rest)
  else none

def directive? (text : List Glyph) : Option (Token × List Glyph) := do
  let (chars, rest) := name text
  if !atSeparator rest then none
  let (token, rest) ← match String.ofList chars with
    | "YAML" => version? rest
    | "TAG" => handleMeaning? rest
    | _ => none
  return (token, ← nextLine? rest)

end QubitRouting.Yaml
