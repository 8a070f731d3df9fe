import QubitRouting.Yaml.Lexer
import QubitRouting.Yaml.Node

/-!
YAML documents: the directives in front of one, its marks, and its root. Main entry: `document?`
reads a text with at most one document.
-/

namespace QubitRouting.Yaml

def standardHandles : List (String × Tag) :=
  [("!", Tag.ofText ['!']), ("!!", Tag.ofText "tag:yaml.org,2002:".toList)]

structure Document where
  root : Node
  /-- The nodes with an anchor by number, the latest first. -/
  anchored : List (Nat × Node)
  deriving Repr, Inhabited

namespace Document

def empty : Document := ⟨.missing, []⟩

def follow (d : Document) : Node → Node
  | .reference number => (d.anchored.lookup number).getD .missing
  | node => node

end Document

/-- The handles that the directives in front of a document declare, and the tokens after them. A
version is named once, a handle declared once. -/
def directives? (versioned : Bool) (handles : List (String × Tag)) :
    List Token → Option (List (String × Tag) × List Token)
  | .version major minor :: rest =>
    if versioned || major ≠ 1 || (minor ≠ 1 && minor ≠ 2) then none
    else directives? true handles rest
  | .handle name meaning :: rest =>
    if (handles.lookup name).isSome then none
    else directives? versioned ((name, meaning) :: handles) rest
  | rest => some (handles, rest)

def rooted? (handles : List (String × Tag)) (tokens : List Token) :
    Option (Document × List Token) := do
  let (root, s) ← Node.read (4 * (tokens.length + 2)) true false
    ⟨tokens, handles ++ standardHandles, [], []⟩
  return (⟨root, s.anchored⟩, s.tokens)

/-- The first document and the tokens after it. Directives, and a document without content, need the
mark in front of the document. -/
def first? (tokens : List Token) : Option (Document × List Token) := do
  let (handles, rest) ← directives? false [] tokens
  match rest with
  | [.documentStart] => some (.empty, [])
  | .documentStart :: .documentEnd :: rest => some (.empty, .documentEnd :: rest)
  | .documentStart :: rest => rooted? handles rest
  | _ => if rest.length < tokens.length then none else rooted? [] tokens

def document? (text : String) : Option (Option Document) := do
  match ← Token.scan (← glyphs? text) with
  | [] => some none
  | tokens => do
    let (document, rest) ← first? tokens
    if rest.all (· = .documentEnd) then some (some document) else none

end QubitRouting.Yaml
