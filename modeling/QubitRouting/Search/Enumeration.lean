import QubitRouting.Device.Graph
import QubitRouting.Relay.Path

/-!
The search for routing paths. From the places of control and target the search stops where they
share an edge; otherwise it moves one of them to a qubit that neither has visited, in ascending
order of that qubit, and for one qubit in the order of `Graph.hops`. Every path is simple, since a
qubit that was entered stays visited below that move.

A visitor is told about every state and every completed path, and may turn a state away.
-/

namespace QubitRouting

structure SearchState where
  control : Qubit
  target : Qubit
  unvisited : List Qubit
  relays : List Move
  deriving DecidableEq, Repr

namespace Graph

def terminal? (g : Graph) (control target : Qubit) : Option Move :=
  if g.adjacent control target then some (.nop control target)
  else if g.adjacent target control then some (.flip control target)
  else none

def hops (g : Graph) (control target x : Qubit) : List (Move × Qubit × Qubit) :=
  (if g.adjacent control x then [(.cab control x, x, target)] else []) ++
  (if g.adjacent x control then [(.cba control x, x, target)] else []) ++
  (if g.adjacent target x then [(.tab target x, control, x)] else []) ++
  (if g.adjacent x target then [(.tba target x, control, x)] else [])

end Graph

namespace SearchState

def successors (g : Graph) (s : SearchState) : List SearchState :=
  s.unvisited.flatMap fun x =>
    (g.hops s.control s.target x).map fun (relay, control, target) =>
      ⟨control, target, s.unvisited.erase x, s.relays ++ [relay]⟩

theorem length_unvisited_lt {g : Graph} {s t : SearchState} (h : t ∈ s.successors g) :
    t.unvisited.length < s.unvisited.length := by
  simp only [successors, List.mem_flatMap, List.mem_map] at h
  obtain ⟨x, hx, hop, _, rfl⟩ := h
  have := List.length_erase_of_mem hx
  have := List.length_pos_of_mem hx
  simp only
  omega

end SearchState

structure Visitor (σ : Type) where
  /-- A state, by its moves; the state and all below it are skipped on false. -/
  enter : List Move → σ → Bool × σ
  complete : Path → σ → σ

namespace Graph

variable {σ : Type}

def exhausted (limit : Option Nat) (relays : List Move) : Bool :=
  match limit with
  | none => false
  | some k => k ≤ relays.length

def visitFrom (g : Graph) (limit : Option Nat) (v : Visitor σ) (s : SearchState) (gathered : σ) :
    σ :=
  match v.enter s.relays gathered with
  | (false, gathered) => gathered
  | (true, gathered) =>
    match g.terminal? s.control s.target with
    | some last => v.complete (s.relays ++ [last]) gathered
    | none =>
      if exhausted limit s.relays then gathered
      else
        (s.successors g).attach.foldl
          (fun gathered t => visitFrom g limit v t.1 gathered) gathered
termination_by s.unvisited.length
decreasing_by exact SearchState.length_unvisited_lt t.2

def searchStart (g : Graph) (control target : Qubit) : SearchState :=
  ⟨control, target, g.qubits.filter fun q => q ≠ control ∧ q ≠ target, []⟩

def visit (g : Graph) (limit : Option Nat) (v : Visitor σ) (control target : Qubit)
    (gathered : σ) : σ :=
  if control ≠ target ∧ control < g.size ∧ target < g.size then
    g.visitFrom limit v (g.searchStart control target) gathered
  else gathered

def enumerate (g : Graph) (limit : Option Nat) (control target : Qubit) : List Path :=
  (g.visit limit ⟨fun _ found => (true, found), fun p found => p :: found⟩ control target
    []).reverse

inductive SearchEvent where
  | enter (relays : List Move)
  | skip (relays : List Move)
  | complete (path : Path)
  deriving DecidableEq, Repr

def searchEvents (g : Graph) (limit : Option Nat) (test : List Move → Bool)
    (control target : Qubit) : List SearchEvent :=
  (g.visit limit
    ⟨fun relays events =>
      if test relays then (true, .enter relays :: events) else (false, .skip relays :: events),
      fun p events => .complete p :: events⟩
    control target []).reverse

end Graph

def Graph.SearchEvent.text : Graph.SearchEvent → String
  | .enter relays => "enter " ++ Path.text relays
  | .skip relays => "prune " ++ Path.text relays
  | .complete p => "complete " ++ p.text

end QubitRouting
