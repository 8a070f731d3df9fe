import QubitRouting.Circuit.Gate
import QubitRouting.Number
import Std.Data.HashMap

/-!
Circuits: a number of lines and the gates in the order in which they act. Gates enter a circuit
through `apply` and `extend`, which refuse a gate that does not fit; `Gate.fault?_eq_none_iff` says
that fitting means a target, distinct lines, and only lines that the circuit has. The depth is the
number of levels when every gate is scheduled as early as the gates that share a line with it allow.
-/

namespace QubitRouting

inductive CircuitError where
  | outside (line : Qubit) (lines : Nat) (gate : String)
  | repeated (line : Qubit) (gate : String)
  | noTarget (gate : String)
  | tooManyQubits (count : Nat)
  deriving DecidableEq, Repr, Inhabited

def CircuitError.message : CircuitError → String
  | .outside line lines gate =>
    s!"Qubit {line.text} not found in circuit with {lines} lines (gate: {gate})"
  | .repeated line gate => s!"Duplicate qubit {line.text} in operation (gate: {gate})"
  | .noTarget gate => s!"Gate '{gate}' has no target"
  | .tooManyQubits count => s!"Cannot simulate {count} qubits"

namespace Gate

structure Fits (bound : Nat) (g : Gate) : Prop where
  targets_ne : g.targets ≠ []
  distinct : g.lines.Nodup
  inside : ∀ q ∈ g.lines, q < bound

def lineFault? (bound : Nat) (name : String) (seen : List Qubit) :
    List Qubit → Option CircuitError
  | [] => none
  | q :: rest =>
    if bound ≤ q then some (.outside q bound name)
    else if q ∈ seen then some (.repeated q name)
    else lineFault? bound name (q :: seen) rest

def fault? (bound : Nat) (g : Gate) : Option CircuitError :=
  if g.targets = [] then some (.noTarget g.kind.name)
  else lineFault? bound g.kind.name [] g.lines

theorem lineFault?_eq_none_iff {bound : Nat} {name : String} {seen qs : List Qubit} :
    lineFault? bound name seen qs = none ↔
      (∀ q ∈ qs, q < bound ∧ q ∉ seen) ∧ qs.Nodup := by
  induction qs generalizing seen with
  | nil => simp [lineFault?]
  | cons q rest ih =>
    by_cases hq : bound ≤ q
    · simp only [lineFault?, hq, if_true, List.mem_cons, List.nodup_cons]
      grind
    · by_cases hs : q ∈ seen
      · simp [lineFault?, hq, hs]
      · simp only [lineFault?, hq, hs, if_false, ih, List.mem_cons, List.nodup_cons]
        grind

theorem fault?_eq_none_iff {bound : Nat} {g : Gate} : g.fault? bound = none ↔ g.Fits bound := by
  by_cases ht : g.targets = []
  · rw [fault?, if_pos ht]
    exact ⟨(nomatch ·), fun h => absurd ht h.targets_ne⟩
  · simp only [fault?, ht, if_false, lineFault?_eq_none_iff]
    exact ⟨fun h => ⟨ht, h.2, fun q hq => (h.1 q hq).1⟩,
      fun h => ⟨fun q hq => ⟨h.inside q hq, by simp⟩, h.distinct⟩⟩

instance (bound : Nat) (g : Gate) : Decidable (g.Fits bound) :=
  decidable_of_iff _ fault?_eq_none_iff

end Gate

structure Circuit where
  name : String
  lines : Nat
  gates : List Gate
  deriving DecidableEq, Repr, Inhabited

namespace Circuit

def defaultName : String := "circuit"

def empty (name : String) (lines : Nat) : Circuit := ⟨name, lines, []⟩

def emptyLike (c : Circuit) : Circuit := { c with gates := [] }

def Valid (c : Circuit) : Prop := ∀ g ∈ c.gates, g.Fits c.lines

instance (c : Circuit) : Decidable c.Valid := inferInstanceAs (Decidable (∀ g ∈ c.gates, _))

def addLine? (c : Circuit) : Option Circuit :=
  if c.lines + 1 < wordBound then some { c with lines := c.lines + 1 } else none

def apply (c : Circuit) (g : Gate) : Except CircuitError Circuit :=
  match g.fault? c.lines with
  | some e => .error e
  | none => .ok { c with gates := c.gates ++ [g] }

/-- The circuit with the gates up to the first one that does not fit, and what is wrong with that
one. -/
def extend (c : Circuit) (gates : List Gate) : Circuit × Option CircuitError :=
  ({ c with gates := c.gates ++ gates.takeWhile fun g => (g.fault? c.lines).isNone },
    gates.findSome? (Gate.fault? c.lines))

def ofGates (name : String) (lines : Nat) (gates : List Gate) : Except CircuitError Circuit :=
  match gates.findSome? (Gate.fault? lines) with
  | some e => .error e
  | none => .ok ⟨name, lines, gates⟩

theorem ofGates_eq_ok_iff {name : String} {lines : Nat} {gates : List Gate} {d : Circuit} :
    ofGates name lines gates = .ok d ↔ (∀ g ∈ gates, g.Fits lines) ∧ d = ⟨name, lines, gates⟩ := by
  unfold ofGates
  cases h : gates.findSome? (Gate.fault? lines) with
  | some e =>
    obtain ⟨g, hg, he⟩ := List.exists_of_findSome?_eq_some h
    simp only [reduceCtorEq, false_iff, not_and]
    intro hfits
    rw [Gate.fault?_eq_none_iff.2 (hfits g hg)] at he
    simp at he
  | none =>
    rw [List.findSome?_eq_none_iff] at h
    simp only [Except.ok.injEq]
    exact ⟨fun hd => ⟨fun g hg => Gate.fault?_eq_none_iff.1 (h g hg), hd.symm⟩, fun hd => hd.2.symm⟩

def validated (c : Circuit) : Except CircuitError Circuit := ofGates c.name c.lines c.gates

theorem validated_eq_ok_iff {c d : Circuit} : c.validated = .ok d ↔ c.Valid ∧ d = c :=
  ofGates_eq_ok_iff

def gateCount (c : Circuit) : Nat := c.gates.length

def cnotCount (c : Circuit) : Nat := c.gates.countP Gate.isCnot

def countKind (c : Circuit) (k : GateKind) : Nat := c.gates.countP (·.kind = k)

def inverse (c : Circuit) : Circuit := { c with gates := c.gates.reverse.map Gate.inverse }

def mapLines (c : Circuit) (lines : Nat) (f : Qubit → Qubit) : Except CircuitError Circuit :=
  ofGates c.name lines (c.gates.map (Gate.mapLines f))

def renamedInTurn (f : Nat → Qubit → Qubit) : List Gate → List Gate
  | [] => []
  | g :: gates => g.mapLinesInTurn f :: renamedInTurn (fun i => f (i + g.lines.length)) gates

def mapLinesInTurn (c : Circuit) (lines : Nat) (f : Nat → Qubit → Qubit) :
    Except CircuitError Circuit :=
  ofGates c.name lines (renamedInTurn f c.gates)

abbrev Levels := Std.HashMap Qubit Nat

def Levels.next (levels : Levels) (lines : List Qubit) : Nat :=
  lines.foldl (fun m q => max m (levels.getD q 0)) 0 + 1

def Levels.raise (levels : Levels) (level : Nat) (lines : List Qubit) : Levels :=
  lines.foldl (fun ls q => ls.insert q level) levels

def schedule (s : Levels × Nat) (g : Gate) : Levels × Nat :=
  let level := s.1.next g.lines
  (s.1.raise level g.lines, max s.2 level)

def depth (c : Circuit) : Nat := (c.gates.foldl schedule (∅, 0)).2

def depth? (c : Circuit) : Option Nat :=
  if c.gates.all fun g => g.lines.all (· < c.lines) then some c.depth else none

end Circuit

end QubitRouting
