import QubitRouting.Json.Number

/-!
Tokens of JSON text. The lexer is a fold of one step per character; strings and numbers are
gathered raw and read when they end.
-/

namespace QubitRouting.Json

inductive Token where
  | openBrace
  | closeBrace
  | openBracket
  | closeBracket
  | comma
  | colon
  | atom (value : Json)
  | string (text : Option String)
  deriving Repr, Inhabited

namespace Token

def isSpace (c : Char) : Bool :=
  c = ' ' || c = '\t' || c = '\n' || c = '\r'

def isNumeral (c : Char) : Bool :=
  c.isDigit || c = '-' || c = '+' || c = '.' || c = 'e' || c = 'E'

def punctuation? (c : Char) : Option Token :=
  if c = '\x7b' then some .openBrace
  else if c = '\x7d' then some .closeBrace
  else if c = '[' then some .openBracket
  else if c = ']' then some .closeBracket
  else if c = ',' then some .comma
  else if c = ':' then some .colon
  else none

def word? (raw : List Char) : Option Json :=
  match String.ofList raw with
  | "null" => some .null
  | "true" => some (.bool true)
  | "false" => some (.bool false)
  | _ => none

def hexUnit? (a b c d : Char) : Option Nat := do
  let left := (← Text.hexDigit? a) * 16 + (← Text.hexDigit? b)
  return (left * 16 + (← Text.hexDigit? c)) * 16 + (← Text.hexDigit? d)

def escaped? (c : Char) : Option Char :=
  if c = '"' ∨ c = '\\' ∨ c = '/' then some c
  else if c = 'b' then some '\x08'
  else if c = 't' then some '\t'
  else if c = 'n' then some '\n'
  else if c = 'f' then some '\x0c'
  else if c = 'r' then some '\r'
  else none

def isHigh (unit : Nat) : Bool := 0xD800 ≤ unit && unit < 0xDC00
def isLow (unit : Nat) : Bool := 0xDC00 ≤ unit && unit < 0xE000

/-- The text of a string body after the characters `done`, latest first. Two escaped surrogate
units in order are one character; once a unit has stood alone, `whole` is false and there is no
text. -/
def unescapeFrom (done : List Char) (whole : Bool) : List Char → Option (Option (List Char))
  | [] => some (if whole then some done.reverse else none)
  | '\\' :: 'u' :: a :: b :: c :: d :: rest => do
    let first ← hexUnit? a b c d
    if isLow first then unescapeFrom done false rest
    else if isHigh first then
      match rest with
      | '\\' :: 'u' :: e :: f :: g :: h :: rest =>
        let second ← hexUnit? e f g h
        let scalar := 0x10000 + (first - 0xD800) * 0x400 + (second - 0xDC00)
        unescapeFrom (Char.ofNat scalar :: done) (whole && isLow second) rest
      | rest => unescapeFrom done false rest
    else unescapeFrom (Char.ofNat first :: done) whole rest
  | '\\' :: c :: rest => do
    let c ← escaped? c
    unescapeFrom (c :: done) whole rest
  | c :: rest =>
    if c = '\\' ∨ c < ' ' then none
    else unescapeFrom (c :: done) whole rest

def unescape (raw : List Char) : Option (Option (List Char)) := unescapeFrom [] true raw

/-- What the lexer is in the middle of; raw text is kept latest character first. -/
inductive Mode where
  | between
  | text (raw : List Char) (escaped : Bool)
  | numeral (raw : List Char)
  | word (raw : List Char)
  deriving Repr, Inhabited

structure Lexer where
  done : List Token
  mode : Mode
  deriving Repr, Inhabited

def Lexer.start (done : List Token) (c : Char) : Option Lexer :=
  if isSpace c then some ⟨done, .between⟩
  else if c = '"' then some ⟨done, .text [] false⟩
  else if c.isDigit || c = '-' then some ⟨done, .numeral [c]⟩
  else if c.isAlpha then some ⟨done, .word [c]⟩
  else (punctuation? c).map fun t => ⟨t :: done, .between⟩

def Lexer.step (s : Lexer) (c : Char) : Option Lexer :=
  match s.mode with
  | .between => Lexer.start s.done c
  | .text raw true => some { s with mode := .text (c :: raw) false }
  | .text raw false =>
    if c = '"' then do
      let text ← unescape raw.reverse
      return ⟨.string (text.map String.ofList) :: s.done, .between⟩
    else some { s with mode := .text (c :: raw) (c = '\\') }
  | .numeral raw =>
    if isNumeral c then some { s with mode := .numeral (c :: raw) }
    else do
      let value ← Json.number? raw.reverse
      Lexer.start (.atom value :: s.done) c
  | .word raw =>
    if c.isAlpha then some { s with mode := .word (c :: raw) }
    else do
      let value ← word? raw.reverse
      Lexer.start (.atom value :: s.done) c

def Lexer.finish (s : Lexer) : Option (List Token) :=
  match s.mode with
  | .between => some s.done.reverse
  | .numeral raw => do return ((.atom (← Json.number? raw.reverse)) :: s.done).reverse
  | .word raw => do return ((.atom (← word? raw.reverse)) :: s.done).reverse
  | .text _ _ => none

def scan (text : List Char) : Option (List Token) := do
  (← text.foldlM Lexer.step ⟨[], .between⟩).finish

end Token

end QubitRouting.Json
