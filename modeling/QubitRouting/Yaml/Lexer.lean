import QubitRouting.Yaml.Scalar.Block
import QubitRouting.Yaml.Scalar.Plain
import QubitRouting.Yaml.Scalar.Quoted
import QubitRouting.Yaml.Tag

/-!
YAML text to tokens. That a token was a key is known only at the colon after it, so each token with
which a key may start is remembered until its line ends, and the colon puts the tokens for a key
and, in block context, for its mapping in front of it.
-/

namespace QubitRouting.Yaml

structure KeyStart where
  line : Nat
  column : Nat
  offset : Nat
  /-- Whether nothing but a key may stand here: at the indentation of an open block collection. -/
  required : Bool
  position : Nat
  deriving DecidableEq, Repr, Inhabited

/-- A key is at most this long, in bytes. -/
def maxKeyLength : Nat := 1024

def KeyStart.isPast (k : KeyStart) (g : Glyph) : Bool :=
  k.line < g.line || k.offset + maxKeyLength < g.offset

structure Lexer where
  rest : List Glyph
  /-- The tokens so far, latest first, and how many they are. -/
  tokens : List Token
  count : Nat
  /-- The columns of the open block collections, innermost first. -/
  columns : List Nat
  keyAllowed : Bool
  /-- The possible key here, and those in front of the open brackets, innermost first. -/
  key : Option KeyStart
  outerKeys : List (Option KeyStart)
  deriving Repr, Inhabited

namespace Lexer

def ofText (text : List Glyph) : Lexer := ⟨text, [], 0, [], true, none, []⟩

/-- Between brackets indentation means nothing. -/
def inFlow (s : Lexer) : Bool := !s.outerKeys.isEmpty

def push (s : Lexer) (t : Token) : Lexer := { s with tokens := t :: s.tokens, count := s.count + 1 }

/-- Skips blanks, line breaks, comments and byte order marks. A tab is no blank where a key may
start, save between brackets; outside them a key may start on every new line. -/
def skip (inFlow keyAllowed inComment : Bool) : List Glyph → List Glyph × Bool
  | [] => ([], keyAllowed)
  | g :: rest =>
    if g.isBreak then skip inFlow (keyAllowed || !inFlow) false rest
    else if inComment || g.char = '#' then skip inFlow keyAllowed true rest
    else if g.isOrderMark || g.char = ' ' || (g.char = '\t' && (inFlow || !keyAllowed)) then
      skip inFlow keyAllowed false rest
    else (g :: rest, keyAllowed)

def skipped (s : Lexer) : Lexer :=
  let (rest, keyAllowed) := skip s.inFlow s.keyAllowed false s.rest
  { s with rest, keyAllowed }

def forget? : Option KeyStart → Option (Option KeyStart)
  | some k => if k.required then none else some none
  | none => some none

def forgetPast? (g : Glyph) (key : Option KeyStart) : Option (Option KeyStart) :=
  if key.any (·.isPast g) then forget? key else some key

def dropKey (s : Lexer) : Option Lexer := do
  return { s with key := ← forget? s.key }

def dropPastKeys (s : Lexer) (g : Glyph) : Option Lexer := do
  return { s with key := ← forgetPast? g s.key, outerKeys := ← s.outerKeys.mapM (forgetPast? g) }

def markKey (s : Lexer) (g : Glyph) : Option Lexer :=
  if s.keyAllowed then do
    let s ← s.dropKey
    return { s with
      key := some ⟨g.line, g.column, g.offset, !s.inFlow && s.columns.head? = some g.column,
        s.count⟩ }
  else some s

def closeBlocks (s : Lexer) (deeper : Nat → Bool) : Lexer :=
  if s.inFlow then s
  else
    let closed := (s.columns.takeWhile deeper).length
    { s with
      tokens := List.replicate closed .blockEnd ++ s.tokens
      count := s.count + closed
      columns := s.columns.drop closed }

def isDeeper (s : Lexer) (column : Nat) : Bool := s.columns.head?.all (· < column)

def openBlock (s : Lexer) (t : Token) (column : Nat) : Lexer :=
  if s.isDeeper column then { s.push t with columns := column :: s.columns } else s

def insert (s : Lexer) (position : Nat) (more : List Token) : Lexer :=
  let after := s.count - position
  { s with
    tokens := s.tokens.take after ++ more ++ s.tokens.drop after
    count := s.count + more.length }

def between (s : Lexer) (t : Token) (rest : List Glyph) : Option Lexer := do
  let s ← (s.closeBlocks fun _ => true).dropKey
  return { s.push t with rest, keyAllowed := false }

def openFlow (s : Lexer) (g : Glyph) (t : Token) (rest : List Glyph) : Option Lexer := do
  let s ← s.markKey g
  return { s.push t with rest, keyAllowed := true, key := none, outerKeys := s.key :: s.outerKeys }

def closeFlow (s : Lexer) (t : Token) (rest : List Glyph) : Option Lexer := do
  let s ← s.dropKey
  let s := { s.push t with rest, keyAllowed := false }
  return match s.outerKeys with
    | [] => s
    | key :: outerKeys => { s with key, outerKeys }

def comma (s : Lexer) (rest : List Glyph) : Option Lexer := do
  let s ← s.dropKey
  return { s.push .comma with rest, keyAllowed := true }

/-- An entry of a block sequence or an explicit key: in block context it opens its collection. -/
def entry (s : Lexer) (g : Glyph) (collection t : Token) (keyAllowed : Bool)
    (rest : List Glyph) : Option Lexer := do
  if !s.inFlow && !s.keyAllowed then none
  let s := if s.inFlow then s else s.openBlock collection g.column
  let s ← s.dropKey
  return { s.push t with rest, keyAllowed }

/-- A colon: after a key, whose tokens it puts in their place, or in front of the value of an
explicit key. -/
def colon (s : Lexer) (g : Glyph) (rest : List Glyph) : Option Lexer :=
  match s.key with
  | some k =>
    let opens := !s.inFlow && s.isDeeper k.column
    let s := if opens then
        { s.insert k.position [.key, .blockMapping] with columns := k.column :: s.columns }
      else s.insert k.position [.key]
    some { s.push .value with rest, key := none, keyAllowed := false }
  | none =>
    if s.inFlow then some { s.push .value with rest, keyAllowed := false }
    else if s.keyAllowed then
      some { (s.openBlock .blockMapping g.column).push .value with rest, keyAllowed := true }
    else none

def ordinary (s : Lexer) (g : Glyph) (t : Token) (rest : List Glyph) : Option Lexer := do
  let s ← s.markKey g
  return { s.push t with rest, keyAllowed := false }

def anchored (s : Lexer) (g : Glyph) (token : String → Token) (rest : List Glyph) :
    Option Lexer := do
  let (name, rest) ← anchorName? rest
  s.ordinary g (token name) rest

def quoted (s : Lexer) (g : Glyph) (style : Style)
    (reading : Option (List Char × List Glyph)) : Option Lexer := do
  let (text, rest) ← reading
  s.ordinary g (.scalar style (String.ofList text)) rest

def plain (s : Lexer) (g : Glyph) : Option Lexer := do
  let r ← Plain.read s.inFlow (s.columns.head?.elim 0 (· + 1)) s.rest
  let s ← s.ordinary g (.scalar .plain (String.ofList r.text)) r.rest
  return { s with keyAllowed := r.overLine }

def block (s : Lexer) (style : Style) (rest : List Glyph) : Option Lexer := do
  let s ← s.dropKey
  let (text, rest) ← Block.read? (style = .folded) s.columns.head? rest
  return { s.push (.scalar style (String.ofList text)) with rest, keyAllowed := true }

def token (s : Lexer) (g : Glyph) (rest : List Glyph) : Option Lexer :=
  if g.column = 0 && g.char = '%' then do
    let (t, rest) ← directive? rest
    s.between t rest
  else if isDocumentMark (g :: rest) then
    s.between (if g.char = '-' then .documentStart else .documentEnd) (rest.drop 2)
  else match g.char with
    | '[' => s.openFlow g .openBracket rest
    | '\x7b' => s.openFlow g .openBrace rest
    | ']' => s.closeFlow .closeBracket rest
    | '\x7d' => s.closeFlow .closeBrace rest
    | ',' => s.comma rest
    | '*' => s.anchored g .reference rest
    | '&' => s.anchored g .anchor rest
    | '!' => do
      let (t, rest) ← tag? s.inFlow (g :: rest)
      s.ordinary g t rest
    | '\'' => s.quoted g .single (Quoted.single rest)
    | '"' => s.quoted g .double (Quoted.double rest)
    | c =>
      if c = '-' && atSeparator rest then s.entry g .blockSequence .dash true rest
      else if c = '?' && (s.inFlow || atSeparator rest) then
        s.entry g .blockMapping .key (!s.inFlow) rest
      else if c = ':' && (s.inFlow || atSeparator rest) then s.colon g rest
      else if c = '|' && !s.inFlow then s.block .literal rest
      else if c = '>' && !s.inFlow then s.block .folded rest
      else if Plain.starts s.inFlow g rest then s.plain g
      else none

def finish (s : Lexer) : Option (List Token) :=
  if (s.key :: s.outerKeys).any fun key => key.any (·.required) then none
  else some (s.closeBlocks fun _ => true).tokens.reverse

/-- Reads on while there is text; each token takes some of it, so its length is fuel enough. -/
def run : Nat → Lexer → Option (List Token)
  | 0, _ => none
  | fuel + 1, s =>
    let s := s.skipped
    match s.rest with
    | [] => s.finish
    | g :: rest => do
      let s ← s.dropPastKeys g
      run fuel (← (s.closeBlocks (g.column < ·)).token g rest)

end Lexer

def Token.scan (text : List Glyph) : Option (List Token) :=
  (Lexer.ofText text).run (text.length + 1)

end QubitRouting.Yaml
