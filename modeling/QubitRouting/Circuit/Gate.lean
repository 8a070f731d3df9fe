/-!
Gates of the reversible and quantum circuit model: a kind of operation, target lines, and control
lines that fire on one or on zero.
-/

namespace QubitRouting

/-- A line of a circuit or a qubit of a device, counted from zero. -/
abbrev Qubit := Nat

def Qubit.text (q : Qubit) : String := s!"q{q}"

inductive Axis where
  | x
  | y
  | z
  deriving DecidableEq, Repr, Inhabited

def Axis.name : Axis → String
  | .x => "x"
  | .y => "y"
  | .z => "z"

inductive GateKind where
  | toffoli
  | hadamard
  /-- The `root`-th root of a Pauli operator, or its adjoint. -/
  | pauli (axis : Axis) (root : Nat) (adjoint : Bool)
  /-- The square root of NOT, or its adjoint. -/
  | v (adjoint : Bool)
  deriving DecidableEq, Repr, Inhabited

namespace GateKind

def name : GateKind → String
  | .toffoli => "t"
  | .hadamard => "h"
  | .pauli .. => "p"
  | .v false => "v"
  | .v true => "v+"

/-- The kind that undoes this one. A Pauli operator, the root of degree one, undoes itself. -/
def inverse : GateKind → GateKind
  | .toffoli => .toffoli
  | .hadamard => .hadamard
  | .pauli axis root adjoint => .pauli axis root (if root = 1 then adjoint else !adjoint)
  | .v adjoint => .v (!adjoint)

@[simp] theorem inverse_inverse (k : GateKind) : k.inverse.inverse = k := by
  cases k with
  | pauli axis root adjoint => by_cases h : root = 1 <;> simp [inverse, h]
  | _ => simp [inverse]

end GateKind

/-- A control line; a positive control fires on one, a negative one on zero. -/
structure Control where
  line : Qubit
  positive : Bool := true
  deriving DecidableEq, Repr, Inhabited

def Control.text (c : Control) : String :=
  if c.positive then c.line.text else "-" ++ c.line.text

structure Gate where
  kind : GateKind
  controls : List Control
  targets : List Qubit
  deriving DecidableEq, Repr, Inhabited

namespace Gate

def not (target : Qubit) : Gate := ⟨.toffoli, [], [target]⟩

def cnot (control target : Qubit) : Gate := ⟨.toffoli, [⟨control, true⟩], [target]⟩

def toffoli (controls : List Control) (target : Qubit) : Gate := ⟨.toffoli, controls, [target]⟩

def hadamard (target : Qubit) : Gate := ⟨.hadamard, [], [target]⟩

def pauli (axis : Axis) (root : Nat) (adjoint : Bool) (target : Qubit) : Gate :=
  ⟨.pauli axis root adjoint, [], [target]⟩

/-- A quarter turn about the z axis, `T` or its adjoint. -/
def quarter (adjoint : Bool) (target : Qubit) : Gate := pauli .z 4 adjoint target

def controlledV (control target : Qubit) (adjoint : Bool) : Gate :=
  ⟨.v adjoint, [⟨control, true⟩], [target]⟩

def lines (g : Gate) : List Qubit := g.controls.map Control.line ++ g.targets

def isToffoli (g : Gate) : Bool := g.kind = .toffoli

def isCnot (g : Gate) : Bool := g.isToffoli && g.controls.length = 1

def control? (g : Gate) : Option Control :=
  match g.controls with
  | [c] => some c
  | _ => none

def target? (g : Gate) : Option Qubit := g.targets.head?

def inverse (g : Gate) : Gate := { g with kind := g.kind.inverse }

@[simp] theorem inverse_inverse (g : Gate) : g.inverse.inverse = g := by simp [inverse]

@[simp] theorem lines_inverse (g : Gate) : g.inverse.lines = g.lines := rfl

def isSelfInverse (g : Gate) : Bool := g.kind.inverse = g.kind

def mapLines (f : Qubit → Qubit) (g : Gate) : Gate where
  kind := g.kind
  controls := g.controls.map fun c => { c with line := f c.line }
  targets := g.targets.map f

@[simp] theorem lines_mapLines (f : Qubit → Qubit) (g : Gate) :
    (g.mapLines f).lines = g.lines.map f := by
  simp [lines, mapLines, Function.comp_def]

/-- The gate with its lines renamed one after the other, the controls first; the image of a line may
depend on how many were asked for before it. -/
def mapLinesInTurn (f : Nat → Qubit → Qubit) (g : Gate) : Gate where
  kind := g.kind
  controls := g.controls.mapIdx fun i c => { c with line := f i c.line }
  targets := g.targets.mapIdx fun i q => f (i + g.controls.length) q

@[simp] theorem lines_mapLinesInTurn (f : Nat → Qubit → Qubit) (g : Gate) :
    (g.mapLinesInTurn f).lines = g.lines.mapIdx f := by
  have hcontrols : (g.mapLinesInTurn f).controls.map Control.line =
      (g.controls.map Control.line).mapIdx f := by
    refine List.ext_getElem? fun i => ?_
    simp [mapLinesInTurn, Function.comp_def]
  rw [lines, hcontrols, lines, List.mapIdx_append, List.length_map]
  rfl

theorem mapLinesInTurn_const (f : Qubit → Qubit) (g : Gate) :
    g.mapLinesInTurn (fun _ => f) = g.mapLines f := by
  simp only [mapLinesInTurn, mapLines, mk.injEq, true_and]
  constructor <;> refine List.ext_getElem? fun i => ?_ <;> simp

def touches (g h : Gate) : Bool := g.lines.any (h.lines.contains ·)

/-- A Pauli root is written with its axis, degree and adjoint mark, any other kind with its name
and the number of its lines. -/
def headText (g : Gate) : String :=
  match g.kind with
  | .pauli axis root adjoint =>
    axis.name ++ (if root = 1 then "" else s!"^1/{root}") ++ (if adjoint then "+" else "")
  | kind => s!"{kind.name}{g.controls.length + g.targets.length}"

def text (g : Gate) : String :=
  String.join (g.headText :: (g.controls.map (" " ++ ·.text) ++ g.targets.map (" " ++ ·.text)))

end Gate

end QubitRouting
