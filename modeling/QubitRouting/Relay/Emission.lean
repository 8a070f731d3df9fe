import QubitRouting.Relay.Path

/-!
The gates that a path stands for. All CNOTs of a move are on its native edge; Hadamards on both ends
turn one of them around.
-/

namespace QubitRouting

def hadamards (a b : Qubit) : List Gate := [.hadamard a, .hadamard b]

namespace Relay

def reversedFirst (r : Relay) : Bool :=
  match r.carried, r.heading with
  | .control, .along => !r.undoing
  | .target, .along => r.undoing
  | .control, .against => r.undoing
  | .target, .against => !r.undoing

/-- Two CNOTs in opposite directions over the native edge. -/
def gates (r : Relay) : List Gate :=
  let (c, t) := r.edge
  let turn := hadamards r.source r.dest
  if r.reversedFirst then turn ++ [.cnot c t] ++ turn ++ [.cnot c t]
  else [.cnot c t] ++ turn ++ [.cnot c t] ++ turn

end Relay

namespace Move

def gates : Move → List Gate
  | .relay r => r.gates
  | .nop a b => [.cnot a b]
  | .flip a b => hadamards a b ++ [.cnot b a] ++ hadamards a b
  | .cnot3 a b c => [.cnot a b, .cnot b c, .cnot a b, .cnot b c]

end Move

namespace Path

/-- The gates of a path after an open run of three-qubit relays, whose gates are `window`. A further
relay of the run wraps the window `W` as `CX W CX W`. -/
def gatesFrom (window : Option (List Gate)) : Path → List Gate
  | [] => window.getD []
  | .cnot3 a b c :: rest =>
    match window with
    | none => gatesFrom (some (Move.cnot3 a b c).gates) rest
    | some w => gatesFrom (some (.cnot a b :: w ++ .cnot a b :: w)) rest
  | m :: rest => window.getD [] ++ m.gates ++ gatesFrom none rest

def gates (p : Path) : List Gate := gatesFrom none p

end Path

/-- Gates that are written one after the other, and the place where an open run of three-qubit
relays starts among them. -/
structure Emission where
  written : List Gate
  start : Option Nat
  deriving DecidableEq, Repr

/-- Writes the gates of a move. A further relay of an open run takes the window back and writes it
twice, each time behind a CNOT. -/
def Emission.write (e : Emission) : Move → Emission
  | .cnot3 a b c =>
    match e.start with
    | none => ⟨e.written ++ (Move.cnot3 a b c).gates, some e.written.length⟩
    | some start =>
      let (before, window) := e.written.splitAt start
      ⟨before ++ (.cnot a b :: window ++ .cnot a b :: window), some start⟩
  | m => ⟨e.written ++ m.gates, none⟩

def Path.emit (p : Path) (out : List Gate) : List Gate :=
  (p.foldl Emission.write ⟨out, none⟩).written

end QubitRouting
