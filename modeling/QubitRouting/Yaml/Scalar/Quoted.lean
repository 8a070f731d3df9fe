import QubitRouting.Number
import QubitRouting.Yaml.Gap

/-!
Quoted scalars. Between single quotes a quote is written twice; between double quotes a backslash
starts an escape. Both run over lines, and a document mark inside them is a fault.
-/

namespace QubitRouting.Yaml.Quoted

def singleFrom (done : List Char) (gap : Gap) : List Glyph → Option (List Char × List Glyph)
  | [] => none
  | g :: rest =>
    if g.separates then singleFrom done (gap.add g.char) rest
    else if isDocumentMark (g :: rest) then none
    else if g.char = '\'' then
      match rest with
      | [] => some ((gap.text ++ done).reverse, [])
      | h :: after =>
        if h.char = '\'' then singleFrom ('\'' :: (gap.text ++ done)) .empty after
        else some ((gap.text ++ done).reverse, rest)
    else singleFrom (g.char :: (gap.text ++ done)) .empty rest

def single (text : List Glyph) : Option (List Char × List Glyph) := singleFrom [] .empty text

def escaped? : Char → Option Char
  | '0' => some '\x00'
  | 'a' => some '\x07'
  | 'b' => some '\x08'
  | 't' => some '\t'
  | '\t' => some '\t'
  | 'n' => some '\n'
  | 'v' => some '\x0b'
  | 'f' => some '\x0c'
  | 'r' => some '\r'
  | 'e' => some '\x1b'
  | ' ' => some ' '
  | '"' => some '"'
  | '/' => some '/'
  | '\\' => some '\\'
  | 'N' => some '\u0085'
  | '_' => some '\u00a0'
  | 'L' => some '\u2028'
  | 'P' => some '\u2029'
  | _ => none

def codeLength? : Char → Option Nat
  | 'x' => some 2
  | 'u' => some 4
  | 'U' => some 8
  | _ => none

def ofCode? (code : Nat) : Option Char :=
  if code.isValidChar then some (Char.ofNat code) else none

inductive Escape where
  | outside
  | afterBackslash
  /-- At a digit of a code after which `left` more follow. -/
  | code (left value : Nat)
  deriving DecidableEq, Repr, Inhabited

def doubleFrom (escape : Escape) (done : List Char) (gap : Gap) :
    List Glyph → Option (List Char × List Glyph)
  | [] => none
  | g :: rest =>
    match escape with
    | .code left value => do
      let value := value * 16 + (← Text.hexDigit? g.char)
      match left with
      | 0 => doubleFrom .outside ((← ofCode? value) :: done) gap rest
      | left + 1 => doubleFrom (.code left value) done gap rest
    | .afterBackslash =>
      if g.isBreak then doubleFrom .outside done (.breaks none []) rest
      else match codeLength? g.char with
        | some length => doubleFrom (.code (length - 1) 0) done gap rest
        | none => do doubleFrom .outside ((← escaped? g.char) :: done) gap rest
    | .outside =>
      if g.separates then doubleFrom .outside done (gap.add g.char) rest
      else if isDocumentMark (g :: rest) then none
      else if g.char = '"' then some ((gap.text ++ done).reverse, rest)
      else if g.char = '\\' then doubleFrom .afterBackslash (gap.text ++ done) .empty rest
      else doubleFrom .outside (g.char :: (gap.text ++ done)) .empty rest

def double (text : List Glyph) : Option (List Char × List Glyph) :=
  doubleFrom .outside [] .empty text

end QubitRouting.Yaml.Quoted
