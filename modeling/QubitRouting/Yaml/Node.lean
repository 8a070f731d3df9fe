import QubitRouting.Yaml.Token

/-!
YAML nodes: scalars, sequences, mappings, and references to nodes with an anchor. They are read from
tokens by one function for each kind of collection; a node that is missing where one may be is the
empty plain scalar.
-/

namespace QubitRouting.Yaml

structure Scalar where
  tag : Option Tag
  style : Style
  text : String
  deriving DecidableEq, Repr, Inhabited

inductive Node where
  | scalar (s : Scalar)
  | sequence (items : List Node)
  | mapping (entries : List (Node × Node))
  | reference (number : Nat)
  deriving Repr, Inhabited

namespace Node

def missing : Node := .scalar ⟨none, .plain, ""⟩

structure Source where
  tokens : List Token
  handles : List (String × Tag)
  /-- The names of anchors, each once, with the numbers of their nodes. -/
  anchors : List (String × Nat)
  /-- The nodes with an anchor by number, the latest first. Of a collection only the kind is
  kept. -/
  anchored : List (Nat × Node)
  deriving Repr, Inhabited

namespace Source

def skip (s : Source) : Source := { s with tokens := s.tokens.drop 1 }

def next? (s : Source) : Option Token := s.tokens.head?

def isAt (s : Source) (tokens : List Token) : Bool := s.next?.any tokens.contains

/-- Numbers a node that has an anchor by how many names there are before it. A name that is used
again adds none, so the node after it has the same number and takes its place. -/
def record (s : Source) (anchor : Option String) (node : Node) : Source :=
  match anchor with
  | none => s
  | some name =>
    let number := s.anchors.length
    { s with
      anchors := (name, number) :: s.anchors.filter (·.1 ≠ name)
      anchored := (number, node) :: s.anchored }

def resolve? (s : Source) (handle : String) (ending : Tag) : Option Tag :=
  if handle = "" then some ending else (s.handles.lookup handle).map (· ++ ending)

end Source

structure Properties where
  anchor : Option String
  tag : Option Tag
  deriving Repr, Inhabited

def properties? (s : Source) : Option (Properties × Source) :=
  match s.tokens with
  | .anchor name :: .tag handle ending :: rest => do
    return (⟨some name, ← s.resolve? handle ending⟩, { s with tokens := rest })
  | .tag handle ending :: .anchor name :: rest => do
    return (⟨some name, ← s.resolve? handle ending⟩, { s with tokens := rest })
  | .anchor name :: rest => some (⟨some name, none⟩, { s with tokens := rest })
  | .tag handle ending :: rest => do
    return (⟨none, ← s.resolve? handle ending⟩, { s with tokens := rest })
  | _ => some (⟨none, none⟩, s)

abbrev Reading := Option (Node × Source)

abbrev Entries := Option (List (Node × Node) × Source)

mutual

/-- A node. In block context it may be a block collection, and where `dashes` is set a sequence
whose dashes are not indented. -/
def read (fuel : Nat) (inBlock dashes : Bool) (s : Source) : Reading :=
  match fuel with
  | 0 => none
  | fuel + 1 =>
    match s.next? with
    | some (.reference name) => do return (.reference (← s.anchors.lookup name), s.skip)
    | _ => do
      let (p, s) ← properties? s
      let listed := s.record p.anchor (.sequence [])
      let mapped := s.record p.anchor (.mapping [])
      match s.next? with
      | some (.scalar style text) =>
        let node := .scalar ⟨p.tag, style, text⟩
        return (node, (s.record p.anchor node).skip)
      | some .openBracket =>
        let (items, s) ← flowItems fuel true listed.skip
        return (.sequence items, s)
      | some .openBrace =>
        let (entries, s) ← flowEntries fuel true mapped.skip
        return (.mapping entries, s)
      | next =>
        if dashes && next = some .dash then
          let (items, s) ← dashItems fuel listed
          return (.sequence items, s)
        else if inBlock && next = some .blockSequence then
          let (items, s) ← blockItems fuel listed.skip
          return (.sequence items, s)
        else if inBlock && next = some .blockMapping then
          let (entries, s) ← blockEntries fuel mapped.skip
          return (.mapping entries, s)
        else if p.anchor.isSome || p.tag.isSome then
          let node := .scalar ⟨p.tag, .plain, ""⟩
          return (node, s.record p.anchor node)
        else none

def readUnless (fuel : Nat) (inBlock dashes : Bool) (ends : List Token) (s : Source) : Reading :=
  match fuel with
  | 0 => none
  | fuel + 1 => if s.isAt ends then some (missing, s) else read fuel inBlock dashes s

def blockItems (fuel : Nat) (s : Source) : Option (List Node × Source) :=
  match fuel with
  | 0 => none
  | fuel + 1 =>
    match s.next? with
    | some .blockEnd => some ([], s.skip)
    | some .dash => do
      let (item, s) ← readUnless fuel true false [.dash, .blockEnd] s.skip
      let (items, s) ← blockItems fuel s
      return (item :: items, s)
    | _ => none

/-- The items of a sequence whose dashes are not indented, as far as there are dashes. -/
def dashItems (fuel : Nat) (s : Source) : Option (List Node × Source) :=
  match fuel with
  | 0 => none
  | fuel + 1 =>
    match s.next? with
    | some .dash => do
      let (item, s) ← readUnless fuel true false [.dash, .key, .value, .blockEnd] s.skip
      let (items, s) ← dashItems fuel s
      return (item :: items, s)
    | _ => some ([], s)

def valueOf (fuel : Nat) (inBlock : Bool) (ends : List Token) (s : Source) : Reading :=
  match fuel with
  | 0 => none
  | fuel + 1 =>
    if s.next? = some .value then readUnless fuel inBlock inBlock ends s.skip
    else some (missing, s)

def blockEntries (fuel : Nat) (s : Source) : Entries :=
  match fuel with
  | 0 => none
  | fuel + 1 =>
    match s.next? with
    | some .blockEnd => some ([], s.skip)
    | some .key => do
      let (key, s) ← readUnless fuel true true [.key, .value, .blockEnd] s.skip
      let (value, s) ← valueOf fuel true [.key, .value, .blockEnd] s
      let (entries, s) ← blockEntries fuel s
      return ((key, value) :: entries, s)
    | _ => none

/-- The items between square brackets, with a comma before each but the first. A key among them
begins a mapping of one entry. -/
def flowItems (fuel : Nat) (first : Bool) (s : Source) : Option (List Node × Source) :=
  match fuel with
  | 0 => none
  | fuel + 1 =>
    if s.next? = some .closeBracket then some ([], s.skip)
    else if !first && s.next? ≠ some .comma then none
    else
      let s := if first then s else s.skip
      if s.next? = some .closeBracket then some ([], s.skip)
      else do
        let (item, s) ←
          if s.next? = some .key then flowPair fuel s.skip else read fuel false false s
        let (items, s) ← flowItems fuel false s
        return (item :: items, s)

/-- A key and its value between square brackets. When the key is missing, the token in its place is
lost. -/
def flowPair (fuel : Nat) (s : Source) : Reading :=
  match fuel with
  | 0 => none
  | fuel + 1 => do
    let (key, s) ←
      if s.isAt [.value, .comma, .closeBracket] then some (missing, s.skip)
      else read fuel false false s
    let (value, s) ← valueOf fuel false [.comma, .closeBracket] s
    return (.mapping [(key, value)], s)

def flowEntries (fuel : Nat) (first : Bool) (s : Source) : Entries :=
  match fuel with
  | 0 => none
  | fuel + 1 =>
    if s.next? = some .closeBrace then some ([], s.skip)
    else if !first && s.next? ≠ some .comma then none
    else
      let s := if first then s else s.skip
      if s.next? = some .closeBrace then some ([], s.skip)
      else do
        let ((key, value), s) ←
          if s.next? = some .key then do
            let (key, s) ← readUnless fuel false false [.value, .comma, .closeBrace] s.skip
            let (value, s) ← valueOf fuel false [.comma, .closeBrace] s
            pure ((key, value), s)
          else do
            let (key, s) ← read fuel false false s
            pure ((key, missing), s)
        let (entries, s) ← flowEntries fuel false s
        return ((key, value) :: entries, s)

end

end Node

end QubitRouting.Yaml
