import Mathlib.Data.List.Destutter
import QubitRouting.Relay.Emission

/-!
The price of a path against its gates. A path of any moves adds to the gates before it as many as it
costs, and one more for each CNOT that it performs: for a native CNOT, for a reversed one, and for a
run of three-qubit relays, which together perform one. The cost keeps the number of gates in an open
window and the emission the place where it starts; the two agree move by move.
-/

namespace QubitRouting

namespace Move

def isNop : Move → Bool
  | .nop .. => true
  | _ => false

def isFlip : Move → Bool
  | .flip .. => true
  | _ => false

def isCnot3 : Move → Bool
  | .cnot3 .. => true
  | _ => false

theorem exists_of_isCnot3 {m : Move} (h : m.isCnot3 = true) : ∃ a b c, m = .cnot3 a b c := by
  cases m with
  | cnot3 a b c => exact ⟨a, b, c, rfl⟩
  | _ => cases h

theorem length_gates_relay (r : Relay) : (Move.relay r).gates.length = relayCost := by
  simp only [gates, Relay.gates]
  split_ifs <;> rfl

/-- A move that performs the CNOT emits one gate more than it costs. -/
theorem length_gates {m : Move} (h : m.isCnot3 = false) :
    m.gates.length = m.cost + m.isNop.toNat + m.isFlip.toNat := by
  cases m with
  | relay r => exact length_gates_relay r
  | nop a b => rfl
  | flip a b => rfl
  | cnot3 a b c => cases h

end Move

namespace Path

theorem gatesFrom_cons {m : Move} (h : m.isCnot3 = false) (window : Option (List Gate))
    (p : Path) : gatesFrom window (m :: p) = window.getD [] ++ m.gates ++ gatesFrom none p := by
  cases m with
  | cnot3 a b c => cases h
  | _ => rfl

theorem costFrom_cons {m : Move} (h : m.isCnot3 = false) (window : Option Nat) (p : Path) :
    costFrom window (m :: p) = m.cost + costFrom none p := by
  cases m with
  | cnot3 a b c => cases h
  | _ => rfl

end Path

namespace Emission

/-- The open window is what was written last, behind gates that no further relay of its run changes.
-/
structure Tracks (before : List Gate) (window : Option (List Gate)) (e : Emission) : Prop where
  written : e.written = before ++ window.getD []
  start : e.start = window.map fun _ => before.length

namespace Tracks

variable {before : List Gate} {window : Option (List Gate)} {e : Emission}

theorem opened (h : e.Tracks before none) (a b c : Qubit) :
    (e.write (.cnot3 a b c)).Tracks before (some (Move.cnot3 a b c).gates) := by
  obtain ⟨written, start⟩ := e
  obtain ⟨rfl, rfl⟩ := h
  constructor
  · simp [write]
  · simp [write]

theorem widened {w : List Gate} (h : e.Tracks before (some w)) (a b c : Qubit) :
    (e.write (.cnot3 a b c)).Tracks before (some (.cnot a b :: w ++ .cnot a b :: w)) := by
  obtain ⟨written, start⟩ := e
  obtain ⟨rfl, rfl⟩ := h
  constructor
  · simp [write]
  · simp [write]

theorem closed (h : e.Tracks before window) {m : Move} (hm : m.isCnot3 = false) :
    (e.write m).Tracks (before ++ window.getD [] ++ m.gates) none := by
  obtain ⟨written, start⟩ := e
  obtain ⟨rfl, rfl⟩ := h
  cases m with
  | cnot3 a b c => cases hm
  | _ => exact ⟨by simp [write], rfl⟩

/-- What stands before the open window stays, and the path appends its gates behind it. -/
theorem written_foldl (h : e.Tracks before window) (p : Path) :
    (p.foldl write e).written = before ++ Path.gatesFrom window p := by
  induction p generalizing e before window with
  | nil => exact h.written
  | cons m p ih =>
    rw [List.foldl_cons]
    cases hm : m.isCnot3 with
    | false =>
      rw [ih (h.closed hm), Path.gatesFrom_cons hm]
      simp only [List.append_assoc]
    | true =>
      obtain ⟨a, b, c, rfl⟩ := Move.exists_of_isCnot3 hm
      cases window with
      | none => exact ih (h.opened a b c)
      | some w => exact ih (h.widened a b c)

end Tracks

end Emission

namespace Path

theorem emit_eq (p : Path) (out : List Gate) : p.emit out = out ++ p.gates := by
  have start : Emission.Tracks out none ⟨out, none⟩ := ⟨by simp, rfl⟩
  exact start.written_foldl p

def cnot3Runs (p : Path) : Nat := ((p.map Move.isCnot3).destutter (· ≠ ·)).count true

def runsFrom (opened : Bool) (p : Path) : Nat :=
  ((p.map Move.isCnot3).destutter' (· ≠ ·) opened).count true

theorem runsFrom_cons (opened : Bool) (m : Move) (p : Path) :
    runsFrom opened (m :: p) = runsFrom m.isCnot3 p + (opened && !m.isCnot3).toNat := by
  rw [runsFrom, List.map_cons, List.destutter'_cons]
  cases opened <;> cases m.isCnot3 <;> simp [runsFrom]

theorem cnot3Runs_eq (p : Path) : p.cnot3Runs = runsFrom false p := by
  cases p with
  | nil => rfl
  | cons m p =>
    rw [runsFrom_cons, Bool.false_and, Bool.toNat_false, Nat.add_zero]
    rfl

theorem countP_cons (test : Move → Bool) (m : Move) (p : Path) :
    List.countP test (m :: p) = p.countP test + (test m).toNat := by
  rw [List.countP_cons]
  cases test m <;> rfl

/-- The gates of a path after an open window are what the moves cost, the window, and a gate for
every CNOT that is performed; the one of the open run is in the window already. -/
theorem length_gatesFrom (p : Path) (window : Option (List Gate)) :
    (gatesFrom window p).length + window.isSome.toNat =
      costFrom (window.map List.length) p + (window.map List.length).getD 0 +
        p.countP Move.isNop + p.countP Move.isFlip + runsFrom window.isSome p := by
  induction p generalizing window with
  | nil => cases window <;> simp [gatesFrom, costFrom, runsFrom]
  | cons m p ih =>
    cases hm : m.isCnot3 with
    | false =>
      have rest := ih none
      have here := Move.length_gates hm
      simp only [Option.isSome_none, Bool.toNat_false, Option.map_none, Option.getD_none] at rest
      rw [gatesFrom_cons hm, costFrom_cons hm, runsFrom_cons, hm, countP_cons, countP_cons,
        List.length_append, List.length_append, here]
      cases window with
      | none =>
        simp only [Option.getD_none, List.length_nil, Option.isSome_none, Bool.toNat_false,
          Option.map_none, Bool.false_and]
        omega
      | some w =>
        simp only [Option.getD_some, Option.isSome_some, Bool.toNat_true, Option.map_some,
          Bool.not_false, Bool.true_and]
        omega
    | true =>
      obtain ⟨a, b, c, rfl⟩ := Move.exists_of_isCnot3 hm
      rw [runsFrom_cons, hm, countP_cons, countP_cons]
      cases window with
      | none =>
        have rest := ih (some (Move.cnot3 a b c).gates)
        have four : (Move.cnot3 a b c).gates.length = Move.cnot3Cost + 1 := rfl
        simp only [Option.map_some, four, Option.getD_some, Option.isSome_some, Bool.toNat_true]
          at rest
        simp only [gatesFrom, costFrom, Option.map_none, Option.getD_none, Option.isSome_none,
          Move.isNop, Move.isFlip, Bool.toNat_false, Bool.false_and]
        omega
      | some w =>
        have rest := ih (some (.cnot a b :: w ++ .cnot a b :: w))
        have wide : (Gate.cnot a b :: w ++ Gate.cnot a b :: w).length = 2 * w.length + 2 := by
          simp only [List.length_append, List.length_cons]
          omega
        simp only [Option.map_some, wide, Option.getD_some, Option.isSome_some] at rest
        simp only [gatesFrom, costFrom, Option.map_some, Option.getD_some, Option.isSome_some,
          Move.isNop, Move.isFlip, Bool.toNat_false, Bool.not_true, Bool.and_false]
        omega

/-- Emission leaves the gates before a path as they are, and appends as many as the path costs, one
more for every CNOT on a native edge or over a reversed one, and one for every maximal run of
three-qubit relays. -/
theorem emit_price (p : Path) (out : List Gate) :
    ∃ added, p.emit out = out ++ added ∧ added = p.gates ∧
      added.length = p.cost + p.countP Move.isNop + p.countP Move.isFlip + p.cnot3Runs := by
  refine ⟨p.gates, p.emit_eq out, rfl, ?_⟩
  have := length_gatesFrom p none
  rw [cnot3Runs_eq]
  simpa [gates, cost] using this

/-- Two three-qubit relays, a relay and one more: two runs, behind a gate that was there before. -/
example : let p : Path := [.cnot3 1 2 3, .cnot3 0 1 3, .tab 3 4, .cnot3 0 1 4]
    p.cost = 18 ∧ p.cnot3Runs = 2 ∧ (p.emit [.hadamard 0]).length = 1 + 18 + 2 := by decide

end Path

end QubitRouting
