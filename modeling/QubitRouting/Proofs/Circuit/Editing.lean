import QubitRouting.Circuit.Editing
import QubitRouting.Proofs.Cancellation.NormalForm
import QubitRouting.Proofs.Placement.Histogram
import QubitRouting.Proofs.Simulation.Inverse

/-!
Circuits stay well formed. One edit keeps the gates of a circuit fit for it, so any number of edits
do; an edit that fails has changed nothing, but for a list of gates, of which the longest front that
fits is kept. What walks over the gates of a circuit may rely on their targets and lines.
-/

namespace QubitRouting.Circuit

variable {c next : Circuit} {g : Gate} {e : Edit}

section Extending

variable {gates taken : List Gate} {lines : Nat}

theorem apply_of_fits (h : g.Fits c.lines) :
    c.apply g = .ok { c with gates := c.gates ++ [g] } := by
  rw [apply, Gate.fault?_eq_none_iff.2 h]

theorem apply_of_not_fits (h : ¬ g.Fits c.lines) :
    ∃ e, g.fault? c.lines = some e ∧ c.apply g = .error e := by
  obtain ⟨e, he⟩ := Option.ne_none_iff_exists'.1 (mt Gate.fault?_eq_none_iff.1 h)
  refine ⟨e, he, ?_⟩
  rw [apply, he]

/-- A list of gates is taken in gate by gate, until one is refused. -/
theorem extend_cons (c : Circuit) (g : Gate) (gates : List Gate) : c.extend (g :: gates) =
    match c.apply g with
    | .ok next => next.extend gates
    | .error e => (c, some e) := by
  by_cases hg : g.Fits c.lines
  · have hnone : g.fault? c.lines = none := Gate.fault?_eq_none_iff.2 hg
    rw [apply_of_fits hg]
    simp [extend, hnone]
  · obtain ⟨e, he, happly⟩ := apply_of_not_fits hg
    rw [happly]
    simp [extend, he]

structure LongestFitting (lines : Nat) (gates taken : List Gate) : Prop where
  front : taken <+: gates
  fits : ∀ g ∈ taken, g.Fits lines
  longest : ∀ other, other <+: gates → (∀ g ∈ other, g.Fits lines) → other <+: taken

theorem LongestFitting.cons (h : LongestFitting lines gates taken) (hg : g.Fits lines) :
    LongestFitting lines (g :: gates) (g :: taken) := by
  refine ⟨List.cons_prefix_cons.2 ⟨rfl, h.front⟩, List.forall_mem_cons.2 ⟨hg, h.fits⟩, ?_⟩
  intro other hfront hfits
  cases other with
  | nil => exact List.nil_prefix
  | cons first other =>
    obtain ⟨rfl, hrest⟩ := List.cons_prefix_cons.1 hfront
    exact List.cons_prefix_cons.2 ⟨rfl, h.longest other hrest (List.forall_mem_cons.1 hfits).2⟩

theorem longestFitting_nil (h : ∀ g ∈ gates.head?, ¬ g.Fits lines) :
    LongestFitting lines gates [] := by
  refine ⟨List.nil_prefix, fun _ hg => (List.not_mem_nil hg).elim, fun other hfront hfits => ?_⟩
  cases other with
  | nil => exact List.nil_prefix
  | cons first other =>
    obtain ⟨rest, rfl⟩ := hfront
    exact absurd (hfits first List.mem_cons_self) (h first rfl)

theorem extend_spec (c : Circuit) (gates : List Gate) : ∃ taken,
    LongestFitting c.lines gates taken ∧
    (c.extend gates).1 = { c with gates := c.gates ++ taken } ∧
    ((c.extend gates).2 = none ↔ ∀ g ∈ gates, g.Fits c.lines) := by
  induction gates generalizing c with
  | nil =>
    refine ⟨[], longestFitting_nil (by simp), ?_, by simp [extend]⟩
    simp [extend]
  | cons g gates ih =>
    rw [extend_cons]
    by_cases hg : g.Fits c.lines
    · obtain ⟨taken, hlongest, hnext, hnone⟩ := ih { c with gates := c.gates ++ [g] }
      rw [apply_of_fits hg]
      refine ⟨g :: taken, hlongest.cons hg, ?_, ?_⟩
      · rw [hnext, List.append_assoc, List.singleton_append]
      · rw [hnone, List.forall_mem_cons]
        exact (and_iff_right hg).symm
    · obtain ⟨e, -, happly⟩ := apply_of_not_fits hg
      rw [happly]
      refine ⟨[], longestFitting_nil (by simpa using hg), ?_, ?_⟩
      · rw [List.append_nil]
      · simp [hg]

end Extending

section Steps

variable {x : Except CircuitError Circuit}

theorem replaced_fault_iff : (c.replaced x).2 = none ↔ ∃ next, x = .ok next := by
  cases x <;> simp [replaced]

theorem replaced_of_fault {fault : EditFault} (h : (c.replaced x).2 = some fault) :
    (c.replaced x).1 = c := by
  cases x with
  | ok next => cases h
  | error e => rfl

theorem Valid.replaced (hv : c.Valid) (h : ∀ next, x = .ok next → next.Valid) :
    (c.replaced x).1.Valid := by
  cases x with
  | ok next => exact h next rfl
  | error e => exact hv

theorem valid_of_ofGates {name : String} {lines : Nat} {gates : List Gate}
    (h : ofGates name lines gates = .ok next) : next.Valid := by
  obtain ⟨hfits, rfl⟩ := ofGates_eq_ok_iff.1 h
  exact hfits

theorem replaced_ofGates_fault_iff {name : String} {lines : Nat} {gates : List Gate} :
    (c.replaced (ofGates name lines gates)).2 = none ↔ ∀ g ∈ gates, g.Fits lines := by
  rw [replaced_fault_iff]
  simp only [ofGates_eq_ok_iff, exists_and_left, exists_eq, and_true]

theorem apply_eq_ok_iff :
    (∃ next, c.apply g = .ok next) ↔ g.Fits c.lines := by
  constructor
  · rintro ⟨next, h⟩
    by_contra hg
    obtain ⟨e, -, he⟩ := apply_of_not_fits hg
    rw [he] at h
    cases h
  · exact fun hg => ⟨_, apply_of_fits hg⟩

theorem Valid.append (hv : c.Valid) {gates : List Gate} (h : ∀ g ∈ gates, g.Fits c.lines) :
    ({ c with gates := c.gates ++ gates } : Circuit).Valid :=
  List.forall_mem_append.2 ⟨hv, h⟩

theorem Valid.apply (hv : c.Valid) (h : c.apply g = .ok next) : next.Valid := by
  have hg : g.Fits c.lines := apply_eq_ok_iff.1 ⟨next, h⟩
  rw [apply_of_fits hg] at h
  obtain rfl := Except.ok.inj h
  exact hv.append (List.forall_mem_singleton.2 hg)

theorem Valid.inverted (hv : c.Valid) (backward : Bool) : (c.inverted backward).Valid := by
  cases backward with
  | true => exact hv.inverse
  | false => exact List.forall_mem_map.2 fun g hg => (hv g hg).inverse

theorem Valid.edit (hv : c.Valid) (e : Edit) : (c.edit e).1.Valid := by
  cases e with
  | addLine =>
    unfold Circuit.edit addLine?
    split_ifs
    · exact fun g hg => (hv g hg).mono (Nat.le_succ c.lines)
    · exact hv
  | apply g => exact hv.replaced fun _ => hv.apply
  | build b => exact hv.replaced fun _ => hv.apply
  | extend gates =>
    obtain ⟨taken, hlongest, hnext, -⟩ := c.extend_spec gates
    change (c.extend gates).1.Valid
    rw [hnext]
    exact hv.append hlongest.fits
  | rename name => exact hv
  | mapLines lines f => exact hv.replaced fun _ => valid_of_ofGates
  | mapLinesInTurn lines f => exact hv.replaced fun _ => valid_of_ofGates
  | emptyLike => exact fun g hg => (List.not_mem_nil hg).elim
  | removeDuplicates => exact hv.replaced fun _ => valid_of_ofGates
  | invert backward => exact hv.replaced fun _ => valid_of_ofGates

theorem Valid.edits (hv : c.Valid) (steps : List Edit) : (c.edits steps).Valid := by
  induction steps generalizing c with
  | nil => exact hv
  | cons e steps ih => exact ih (hv.edit e)

/-- An edit that fails leaves the circuit as it was, unless it takes in a list of gates. -/
theorem edit_of_fault {fault : EditFault} (hone : ∀ gates, e ≠ .extend gates)
    (h : (c.edit e).2 = some fault) : (c.edit e).1 = c := by
  cases e with
  | addLine =>
    unfold Circuit.edit at h ⊢
    cases hline : c.addLine? with
    | some next => simp [hline] at h
    | none => rfl
  | extend gates => exact absurd rfl (hone gates)
  | rename name => cases h
  | emptyLike => cases h
  | _ => exact replaced_of_fault h

def Admits (c : Circuit) : Edit → Prop
  | .addLine => c.lines + 1 < wordBound
  | .apply g => g.Fits c.lines
  | .build b => b.gate.Fits c.lines
  | .extend gates => ∀ g ∈ gates, g.Fits c.lines
  | .mapLines lines f => ∀ g ∈ c.gates, (g.mapLines f).Fits lines
  | .mapLinesInTurn lines f => ∀ g ∈ renamedInTurn f c.gates, g.Fits lines
  | .rename _ | .emptyLike | .removeDuplicates | .invert _ => True

theorem mapLines_eq_ok_iff {lines : Nat} {f : Qubit → Qubit} : c.mapLines lines f = .ok next ↔
    (∀ g ∈ c.gates, (g.mapLines f).Fits lines) ∧
      next = ⟨c.name, lines, c.gates.map (Gate.mapLines f)⟩ := by
  rw [mapLines, ofGates_eq_ok_iff, List.forall_mem_map]

theorem lines_renamedInTurn (f : Nat → Qubit → Qubit) (gates : List Gate) :
    (renamedInTurn f gates).flatMap Gate.lines = (gates.flatMap Gate.lines).mapIdx f := by
  induction gates generalizing f with
  | nil => rfl
  | cons g gates ih =>
    rw [renamedInTurn, List.flatMap_cons, List.flatMap_cons, List.mapIdx_append, ih,
      Gate.lines_mapLinesInTurn]

theorem renamedInTurn_const (f : Qubit → Qubit) (gates : List Gate) :
    renamedInTurn (fun _ => f) gates = gates.map (Gate.mapLines f) := by
  induction gates with
  | nil => rfl
  | cons g gates ih => rw [renamedInTurn, ih, Gate.mapLinesInTurn_const, List.map_cons]

theorem mapLinesInTurn_const (lines : Nat) (f : Qubit → Qubit) :
    c.mapLinesInTurn lines (fun _ => f) = c.mapLines lines f := by
  rw [mapLinesInTurn, renamedInTurn_const, mapLines]

example : Circuit.mapLinesInTurn ⟨"two", 2, [.cnot 0 1, .cnot 0 1]⟩ 4 (fun i _ => i) =
    .ok ⟨"two", 4, [.cnot 0 1, .cnot 2 3]⟩ := by
  decide

/-- Of a well-formed circuit an edit fails exactly when it does not get what it asks for. -/
theorem Valid.edit_fault_iff (hv : c.Valid) (e : Edit) : (c.edit e).2 = none ↔ c.Admits e := by
  cases e with
  | addLine =>
    unfold Circuit.edit addLine? Admits
    split_ifs with hroom <;> simp [hroom]
  | apply g => exact replaced_fault_iff.trans apply_eq_ok_iff
  | build b => exact replaced_fault_iff.trans apply_eq_ok_iff
  | extend gates =>
    obtain ⟨_, -, -, hnone⟩ := c.extend_spec gates
    exact Option.map_eq_none_iff.trans hnone
  | rename name => exact iff_of_true rfl trivial
  | mapLines lines f => exact replaced_ofGates_fault_iff.trans List.forall_mem_map
  | mapLinesInTurn lines f => exact replaced_ofGates_fault_iff
  | emptyLike => exact iff_of_true rfl trivial
  | removeDuplicates =>
    exact iff_of_true (replaced_fault_iff.2 ⟨_, removeDuplicates_eq hv⟩) trivial
  | invert backward =>
    exact iff_of_true (replaced_ofGates_fault_iff.2 (hv.inverted backward)) trivial

end Steps

/-- What may be relied on. Every gate has a target, and lines that are different and those of the
circuit, so the depth and the counts of interactions can be found. A gate that fits comes last. An
edit fails only when it does not get what it asks for, and then it has changed nothing; only of a
list of gates the longest front that fits is taken in. -/
structure Sound (c : Circuit) : Prop where
  wellFormed : ∀ g ∈ c.gates, g.targets ≠ [] ∧ g.lines.Nodup ∧ ∀ q ∈ g.lines, q < c.lines
  fails : ∀ e, (c.edit e).2 = none ↔ c.Admits e
  applied : ∀ g, g.Fits c.lines → c.edit (.apply g) = ({ c with gates := c.gates ++ [g] }, none)
  kept : ∀ e fault, (∀ gates, e ≠ .extend gates) → (c.edit e).2 = some fault → (c.edit e).1 = c
  extended : ∀ gates, ∃ taken, LongestFitting c.lines gates taken ∧
    (c.edit (.extend gates)).1 = { c with gates := c.gates ++ taken }
  depth : ∃ depth, c.depth? = some depth
  interactions : ∃ h, Histogram.ofCircuit? c = some h
  target : ∀ g ∈ c.gates, ∃ q, g.target? = some q

theorem Valid.sound (hv : c.Valid) : c.Sound where
  wellFormed g hg := ⟨(hv g hg).targets_ne, (hv g hg).distinct, (hv g hg).inside⟩
  fails := hv.edit_fault_iff
  applied g hg := by
    rw [Circuit.edit, apply_of_fits hg]
    rfl
  kept _ _ := edit_of_fault
  extended gates := by
    obtain ⟨taken, hlongest, hnext, -⟩ := c.extend_spec gates
    exact ⟨taken, hlongest, hnext⟩
  depth := ⟨_, depth?_of_fit hv⟩
  interactions := ⟨_, Histogram.ofCircuit?_eq hv⟩
  target g hg := by
    obtain ⟨q, rest, htargets⟩ := List.exists_cons_of_ne_nil (hv g hg).targets_ne
    exact ⟨q, by rw [Gate.target?, htargets]; rfl⟩

/-- Every circuit that edits make from an empty one, with any number of lines, can be relied on. -/
theorem edits_sound (name : String) (lines : Nat) (steps : List Edit) :
    ((Circuit.empty name lines).edits steps).Sound := by
  have hempty : (Circuit.empty name lines).Valid := fun g hg => (List.not_mem_nil hg).elim
  exact (hempty.edits steps).sound

/-- A gate that fits is not taken in behind one that does not. -/
example : ((Circuit.empty "two" 1).edits
    [.addLine, .extend [.cnot 0 1, .not 2, .not 0], .mapLines 2 (· / 2)]).gates = [.cnot 0 1] := by
  decide

end QubitRouting.Circuit
