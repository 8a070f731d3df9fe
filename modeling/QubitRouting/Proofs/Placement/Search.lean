import Mathlib.Data.List.MinMax
import Mathlib.Data.Prod.Lex
import QubitRouting.Placement.Search
import QubitRouting.Proofs.Routing.Replacement

/-!
Where a placement comes from. The chosen placement is one of those that were tried: a layout has
moved the gates of the circuit onto the device, the router has routed the moved circuit, and the
result was cleaned.
-/

namespace QubitRouting

theorem foldl_argAux {α : Type} (r : α → α → Prop) [DecidableRel r] (l : List α) (a : α) :
    l.foldl (List.argAux r) (some a) = some (l.foldl (fun b c => if r c b then c else b) a) := by
  induction l generalizing a with
  | nil => rfl
  | cons c rest ih =>
    have hstep : List.argAux r (some a) c = some (if r c a then c else a) := by
      simp only [List.argAux]
      split_ifs <;> rfl
    rw [List.foldl_cons, List.foldl_cons, hstep, ih]

namespace Layout

variable {l : Layout} {c moved : Circuit} {size : Nat} {gate x : Gate}

theorem of_relocate (h : l.relocate size gate = .ok x) :
    x.Fits size ∧ x = gate.mapLines fun q => l.images.getD q 0 := by
  unfold relocate at h
  split_ifs at h
  simp only at h
  split at h
  · cases h
  · next hfault =>
    obtain rfl := Except.ok.inj h
    exact ⟨Gate.fault?_eq_none_iff.1 hfault, rfl⟩

/-- Gates that were moved fit the device, and differ from those of the circuit in their lines only.
-/
theorem of_apply (h : l.apply c size = .ok moved) : moved.lines = size ∧
    ∀ x ∈ moved.gates, x.Fits size ∧ ∃ gate ∈ c.gates, ∃ f, x = gate.mapLines f := by
  have hlong : ¬ l.size < c.lines := by
    intro hshort
    simp only [apply, hshort, if_true] at h
    cases h
  have hsmall : ¬ wordBound ≤ size := by
    intro hhuge
    simp only [apply, hlong, hhuge, if_true, if_false] at h
    cases h
  simp only [apply, hlong, hsmall, if_false] at h
  obtain ⟨gates, hgates, h⟩ := bind_eq_ok_iff.1 h
  obtain rfl := Except.ok.inj h
  refine ⟨rfl, ?_⟩
  intro x hx
  obtain ⟨gate, hgate, hmoved⟩ := exists_of_mem_mapM hgates hx
  obtain ⟨hfit, heq⟩ := of_relocate hmoved
  exact ⟨hfit, gate, hgate, _, heq⟩

theorem apply_ne_unreachable {v w : Qubit} : l.apply c size ≠ .error (.unreachable v w) := by
  intro h
  by_cases hshort : l.size < c.lines
  · simp only [apply, hshort, if_true] at h
    cases h
  by_cases hhuge : wordBound ≤ size
  · simp only [apply, hshort, hhuge, if_true, if_false] at h
    cases h
  simp only [apply, hshort, hhuge, if_false] at h
  rcases bind_eq_error_iff.1 h with h | ⟨gates, -, h⟩
  · obtain ⟨gate, -, h⟩ := exists_of_mapM_error h
    unfold relocate at h
    split_ifs at h
    · simp only at h
      split at h <;> cases h
    · cases h
  · cases h

end Layout

theorem cleaned_ne_unreachable {c : Circuit} {v w : Qubit} :
    cleaned c ≠ .error (.unreachable v w) := by
  intro h
  rcases bind_eq_error_iff.1 h with h | ⟨d, -, h⟩
  · cases hd : c.removeDuplicates <;> rw [hd] at h <;> cases h
  · unfold RoutedCircuit.ofCircuit at h
    split at h <;> cases h

namespace Placement

variable {p : Placement} {placements : List Placement}

def key (p : Placement) : ℕ ×ₗ ℕ := toLex (p.routed.gateCount, p.estimate)

theorem better_iff {q : Placement} : p.better q = true ↔ p.key < q.key := by
  simp [better, key, Prod.Lex.toLex_lt_toLex]

theorem best_eq_argmin (placements : List Placement) : best placements = placements.argmin key := by
  cases placements with
  | nil => rfl
  | cons p rest =>
    simp only [best, better_iff]
    exact (foldl_argAux (fun b c : Placement => b.key < c.key) rest p).symm

theorem mem_of_best (h : best placements = some p) : p ∈ placements := by
  rw [best_eq_argmin] at h
  exact List.argmin_mem h

/-- Of the placements, the best comes first in the order by gates, estimate and position. -/
theorem exists_position_of_best (h : best placements = some p) :
    ∃ i : Nat, placements[i]? = some p ∧
      ∀ (j : Nat) q, placements[j]? = some q → toLex (p.key, i) ≤ toLex (q.key, j) := by
  rw [best_eq_argmin] at h
  have hp := List.argmin_mem h
  refine ⟨placements.idxOf p, ?_, ?_⟩
  · rw [List.getElem?_eq_getElem (List.idxOf_lt_length_of_mem hp), List.getElem_idxOf]
  · intro j q hj
    have hq := List.mem_of_getElem? hj
    have hj' : placements.idxOf q ≤ j := by
      by_contra hlt
      have hne := List.not_of_lt_findIdx (Nat.not_le.1 hlt)
      rw [List.getElem?_eq_some_iff] at hj
      obtain ⟨_, rfl⟩ := hj
      simp at hne
    rw [Prod.Lex.toLex_le_toLex]
    rcases (List.le_of_mem_argmin hq h).lt_or_eq with hlt | heq
    · exact Or.inl hlt
    · exact Or.inr ⟨heq, (List.index_of_argmin h hq heq.ge).trans hj'⟩

def gatesAfter (c : Circuit) (r : Router) (l : Layout) : Except RoutingError Nat := do
  let moved ← l.apply c r.size
  let out ← r.route moved
  let clean ← out.circuit.removeDuplicates.mapError .circuit
  return clean.gateCount

/-- A placement that was realized: its layout has moved the circuit, the router has routed it, and
the result was cleaned. -/
structure Stages (c : Circuit) (r : Router) (p : Placement) (moved : Circuit)
    (out : RoutedCircuit) : Prop where
  relocated : p.layout.apply c r.size = .ok moved
  routed : r.route moved = .ok out
  cleaned : out.circuit.removeDuplicates = .ok p.routed.circuit
  counted : p.routed.gateCount = p.routed.circuit.gateCount

variable {c : Circuit} {r : Router} {strategy : Strategy} {count : Nat}
  {candidate : Layout × Nat}

theorem of_realize (h : realize c r strategy count candidate = .ok p) :
    (p.layout, p.estimate) = candidate ∧ p.candidates = count ∧ p.strategy = strategy ∧
      ∃ moved out, Stages c r p moved out := by
  obtain ⟨layout, estimate⟩ := candidate
  obtain ⟨moved, hmoved, h⟩ := bind_eq_ok_iff.1 h
  obtain ⟨out, hout, h⟩ := bind_eq_ok_iff.1 h
  obtain ⟨routed, hrouted, h⟩ := bind_eq_ok_iff.1 h
  obtain rfl := Except.ok.inj h
  obtain ⟨clean, hclean, hrouted⟩ := bind_eq_ok_iff.1 hrouted
  refine ⟨rfl, rfl, rfl, moved, out, hmoved, hout, ?_, ?_⟩
  · rw [(RoutedCircuit.circuit_of_ofCircuit hrouted).1]
    cases hdup : out.circuit.removeDuplicates with
    | error e =>
      rw [hdup] at hclean
      cases hclean
    | ok d =>
      rw [hdup] at hclean
      obtain rfl := Except.ok.inj hclean
      rfl
  · unfold RoutedCircuit.ofCircuit at hrouted
    split at hrouted
    · cases hrouted
    · obtain rfl := Except.ok.inj hrouted
      rfl

theorem Stages.gatesAfter {moved : Circuit} {out : RoutedCircuit}
    (h : Stages c r p moved out) : gatesAfter c r p.layout = .ok p.routed.gateCount := by
  rw [Placement.gatesAfter, h.relocated, ok_bind, h.routed, ok_bind, h.cleaned, h.counted]
  rfl

end Placement

theorem exists_placements {c : Circuit} {r : Router} {s : Settings} {p : Placement}
    (h : searchPlacement c r s = .ok (.placed p)) :
    ∃ hist placements, Histogram.ofCircuit? c = some hist ∧
      (placementCandidates c r s hist).2.mapM (Placement.realize c r
        (placementCandidates c r s hist).1 (placementCandidates c r s hist).2.length) =
          .ok placements ∧
      Placement.best placements = some p := by
  unfold searchPlacement at h
  split at h
  · cases h
  split at h
  · cases h
  · next hist hhist =>
    obtain ⟨placements, hplacements, h⟩ := bind_eq_ok_iff.1 h
    refine ⟨hist, placements, hhist, hplacements, ?_⟩
    split at h
    · cases h
    · next best hbest =>
      obtain rfl := PlacementOutcome.placed.inj (Except.ok.inj h)
      exact hbest

theorem of_searchPlacement {c : Circuit} {r : Router} {s : Settings} {p : Placement}
    (h : searchPlacement c r s = .ok (.placed p)) :
    ∃ (layout : Layout) (moved : Circuit) (out : RoutedCircuit),
      layout.apply c r.size = .ok moved ∧ r.route moved = .ok out ∧
      out.circuit.removeDuplicates = .ok p.routed.circuit := by
  obtain ⟨hist, placements, -, hplacements, hbest⟩ := exists_placements h
  obtain ⟨candidate, -, hcandidate⟩ :=
    exists_of_mem_mapM hplacements (Placement.mem_of_best hbest)
  obtain ⟨-, -, -, moved, out, hp⟩ := Placement.of_realize hcandidate
  exact ⟨p.layout, moved, out, hp.relocated, hp.routed, hp.cleaned⟩

/-- A search ends at a pair out of reach only where the routing of a moved circuit does. -/
theorem exists_of_searchPlacement_unreachable {c : Circuit} {r : Router} {s : Settings}
    {v w : Qubit} (h : searchPlacement c r s = .error (.unreachable v w)) :
    ∃ (layout : Layout) (moved : Circuit), layout.apply c r.size = .ok moved ∧
      r.route moved = .error (.unreachable v w) := by
  unfold searchPlacement at h
  split at h
  · cases h
  split at h
  · cases h
  · rcases bind_eq_error_iff.1 h with h | ⟨placements, -, h⟩
    · obtain ⟨⟨layout, estimate⟩, -, h⟩ := exists_of_mapM_error h
      rcases bind_eq_error_iff.1 h with h | ⟨moved, hmoved, h⟩
      · exact absurd h Layout.apply_ne_unreachable
      rcases bind_eq_error_iff.1 h with h | ⟨out, -, h⟩
      · exact ⟨layout, moved, hmoved, h⟩
      rcases bind_eq_error_iff.1 h with h | ⟨routed, -, h⟩
      · exact absurd h cleaned_ne_unreachable
      · cases h
    · split at h <;> cases h

end QubitRouting
