import QubitRouting.Device.Graph
import QubitRouting.Text.Blank

/-!
The devices that are known by name.
-/

namespace QubitRouting

structure Architecture where
  name : String
  description : String
  size : Nat
  couplings : List (Qubit × Qubit)
  bidirectional : Bool
  deriving DecidableEq, Repr

namespace Architecture

def qx2 : Architecture where
  name := "qx2"
  description := "IBM QX2 (5 qubits)"
  size := 5
  couplings := [(0, 1), (0, 2), (1, 2), (3, 2), (3, 4), (4, 2)]
  bidirectional := false

def qx4 : Architecture where
  name := "qx4"
  description := "IBM QX4 (5 qubits)"
  size := 5
  couplings := [(1, 0), (2, 0), (2, 1), (3, 2), (3, 4), (2, 4)]
  bidirectional := false

def qx3 : Architecture where
  name := "qx3"
  description := "IBM QX3 (16 qubits)"
  size := 16
  couplings := [(0, 1), (1, 2), (2, 3), (3, 14), (4, 3), (4, 5), (6, 7), (6, 11), (6, 5), (7, 10),
    (8, 7), (9, 8), (9, 10), (11, 10), (12, 5), (12, 11), (12, 13), (13, 4), (13, 14), (15, 0),
    (15, 14)]
  bidirectional := false

def qx5 : Architecture where
  name := "qx5"
  description := "IBM QX5 (16 qubits)"
  size := 16
  couplings := [(1, 0), (1, 2), (2, 3), (3, 4), (3, 14), (5, 4), (6, 5), (6, 7), (6, 11), (7, 10),
    (8, 7), (9, 8), (9, 10), (11, 10), (12, 5), (12, 11), (12, 13), (13, 4), (13, 14), (15, 0),
    (15, 2), (15, 14)]
  bidirectional := false

def qx20 : Architecture where
  name := "qx20"
  description := "IBM Q20 Tokyo (20 qubits, bidirectional)"
  size := 20
  couplings := [(0, 1), (1, 2), (2, 3), (3, 4), (0, 5), (1, 6), (1, 7), (2, 6), (2, 7), (3, 8),
    (3, 9), (4, 8), (4, 9), (5, 6), (6, 7), (7, 8), (8, 9), (5, 10), (5, 11), (6, 10), (6, 11),
    (7, 12), (7, 13), (8, 12), (8, 13), (9, 14), (10, 11), (11, 12), (12, 13), (13, 14), (10, 15),
    (11, 16), (11, 17), (12, 16), (12, 17), (13, 18), (13, 19), (14, 18), (14, 19), (15, 16),
    (16, 17), (17, 18), (18, 19)]
  bidirectional := true

def all : List Architecture := [qx2, qx4, qx3, qx5, qx20]

def ofName (name : String) : Except RoutingError Architecture :=
  match all.find? fun a => a.name = Text.lowerCase name with
  | some a => .ok a
  | none => .error (.unknownArchitecture name)

def graph (a : Architecture) : Graph :=
  Graph.tabulate a.size fun c t =>
    a.couplings.contains (c, t) || (a.bidirectional && a.couplings.contains (t, c))

end Architecture

end QubitRouting
