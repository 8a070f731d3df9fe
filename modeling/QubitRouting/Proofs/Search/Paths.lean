import Mathlib.Data.List.Basic
import Mathlib.Logic.Relation
import QubitRouting.Search.Enumeration

/-!
The paths below a state of the search, apart from any visitor. They are the moves to the states that
can be reached and whose places share an edge, each followed by its terminal move; a visitor that
turns nothing away is told about exactly these, in this order.
-/

namespace QubitRouting.Graph

variable {g : Graph} {limit : Option Nat} {σ : Type}

def pathsFrom (g : Graph) (limit : Option Nat) (s : SearchState) : List Path :=
  match g.terminal? s.control s.target with
  | some last => [s.relays ++ [last]]
  | none =>
    if exhausted limit s.relays then []
    else (s.successors g).attach.flatMap fun t => pathsFrom g limit t.1
termination_by s.unvisited.length
decreasing_by exact SearchState.length_unvisited_lt t.2

theorem search_induction (g : Graph) {P : SearchState → Prop}
    (step : ∀ s, (∀ t ∈ s.successors g, P t) → P s) (s : SearchState) : P s :=
  step s fun t _ht => search_induction g step t
termination_by s.unvisited.length
decreasing_by exact SearchState.length_unvisited_lt _ht

def Extends (g : Graph) (limit : Option Nat) (s t : SearchState) : Prop :=
  g.terminal? s.control s.target = none ∧ exhausted limit s.relays = false ∧ t ∈ s.successors g

def Reaches (g : Graph) (limit : Option Nat) : SearchState → SearchState → Prop :=
  Relation.ReflTransGen (g.Extends limit)

section Paths

variable {s : SearchState}

theorem pathsFrom_of_terminal {last : Move} (h : g.terminal? s.control s.target = some last) :
    g.pathsFrom limit s = [s.relays ++ [last]] := by
  rw [pathsFrom, h]

theorem pathsFrom_of_exhausted (h : g.terminal? s.control s.target = none)
    (hl : exhausted limit s.relays = true) : g.pathsFrom limit s = [] := by
  rw [pathsFrom, h]
  simp [hl]

theorem pathsFrom_of_open (h : g.terminal? s.control s.target = none)
    (hl : exhausted limit s.relays = false) :
    g.pathsFrom limit s = (s.successors g).flatMap (g.pathsFrom limit) := by
  rw [pathsFrom, h]
  simp [hl, List.flatMap_subtype]

theorem mem_pathsFrom {p : Path} (hp : p ∈ g.pathsFrom limit s) :
    ∃ t last, g.Reaches limit s t ∧ g.terminal? t.control t.target = some last ∧
      p = t.relays ++ [last] := by
  induction s using search_induction g with
  | step s ih =>
    cases h : g.terminal? s.control s.target with
    | some last =>
      rw [pathsFrom_of_terminal h, List.mem_singleton] at hp
      exact ⟨s, last, .refl, h, hp⟩
    | none =>
      cases hl : exhausted limit s.relays with
      | true => simp [pathsFrom_of_exhausted h hl] at hp
      | false =>
        rw [pathsFrom_of_open h hl, List.mem_flatMap] at hp
        obtain ⟨u, hu, hp⟩ := hp
        obtain ⟨t, last, hut, ht, rfl⟩ := ih u hu hp
        exact ⟨t, last, .head ⟨h, hl, hu⟩ hut, ht, rfl⟩

theorem mem_pathsFrom_of_reaches {t : SearchState} {last : Move} (h : g.Reaches limit s t)
    (ht : g.terminal? t.control t.target = some last) :
    t.relays ++ [last] ∈ g.pathsFrom limit s := by
  induction h using Relation.ReflTransGen.head_induction_on with
  | refl => simp [pathsFrom_of_terminal ht]
  | head hsu _ ih =>
    rw [pathsFrom_of_open hsu.1 hsu.2.1, List.mem_flatMap]
    exact ⟨_, hsu.2.2, ih⟩

end Paths

section Visit

variable (v : Visitor σ) {s : SearchState} {gathered : σ}

theorem visitFrom_of_skipped (h : (v.enter s.relays gathered).1 = false) :
    g.visitFrom limit v s gathered = (v.enter s.relays gathered).2 := by
  rw [visitFrom]
  split <;> simp_all

theorem visitFrom_of_terminal {last : Move} (h : (v.enter s.relays gathered).1 = true)
    (ht : g.terminal? s.control s.target = some last) :
    g.visitFrom limit v s gathered =
      v.complete (s.relays ++ [last]) (v.enter s.relays gathered).2 := by
  rw [visitFrom]
  split <;> simp_all

theorem visitFrom_of_exhausted (h : (v.enter s.relays gathered).1 = true)
    (ht : g.terminal? s.control s.target = none) (hl : exhausted limit s.relays = true) :
    g.visitFrom limit v s gathered = (v.enter s.relays gathered).2 := by
  rw [visitFrom]
  split <;> simp_all

theorem visitFrom_of_open (h : (v.enter s.relays gathered).1 = true)
    (ht : g.terminal? s.control s.target = none) (hl : exhausted limit s.relays = false) :
    g.visitFrom limit v s gathered =
      (s.successors g).foldl (fun x t => g.visitFrom limit v t x)
        (v.enter s.relays gathered).2 := by
  rw [visitFrom]
  split <;> simp_all

theorem visitFrom_of_accepts (hv : ∀ relays x, v.enter relays x = (true, x)) (s : SearchState)
    (gathered : σ) : g.visitFrom limit v s gathered =
      (g.pathsFrom limit s).foldl (fun x p => v.complete p x) gathered := by
  induction s using search_induction g generalizing gathered with
  | step s ih =>
    have hs : (v.enter s.relays gathered).1 = true := by rw [hv]
    cases ht : g.terminal? s.control s.target with
    | some last =>
      rw [visitFrom_of_terminal v hs ht, pathsFrom_of_terminal ht, hv]
      rfl
    | none =>
      cases hl : exhausted limit s.relays with
      | true => rw [visitFrom_of_exhausted v hs ht hl, pathsFrom_of_exhausted ht hl, hv]; rfl
      | false =>
        rw [visitFrom_of_open v hs ht hl, pathsFrom_of_open ht hl, hv, List.foldl_flatMap]
        exact List.foldl_ext _ _ _ fun x t h => ih t h x

theorem visitFrom_preserves {P : σ → Prop} (henter : ∀ relays x, P x → P (v.enter relays x).2)
    (s : SearchState) (hcomplete : ∀ p ∈ g.pathsFrom limit s, ∀ x, P x → P (v.complete p x))
    (gathered : σ) (h : P gathered) : P (g.visitFrom limit v s gathered) := by
  induction s using search_induction g generalizing gathered with
  | step s ih =>
    have hs := henter s.relays gathered h
    cases hadmit : (v.enter s.relays gathered).1 with
    | false => rwa [visitFrom_of_skipped v hadmit]
    | true =>
      cases ht : g.terminal? s.control s.target with
      | some last =>
        rw [visitFrom_of_terminal v hadmit ht]
        exact hcomplete _ (by simp [pathsFrom_of_terminal ht]) _ hs
      | none =>
        cases hl : exhausted limit s.relays with
        | true => rwa [visitFrom_of_exhausted v hadmit ht hl]
        | false =>
          rw [visitFrom_of_open v hadmit ht hl]
          refine List.foldlRecOn (motive := P) _ _ hs fun x hx t htmem => ?_
          refine ih t htmem (fun p hp => hcomplete p ?_) x hx
          rw [pathsFrom_of_open ht hl, List.mem_flatMap]
          exact ⟨t, htmem, hp⟩

end Visit

theorem enumerate_eq (g : Graph) (limit : Option Nat) {c t : Qubit} (h : c ≠ t)
    (hc : c < g.size) (ht : t < g.size) :
    g.enumerate limit c t = g.pathsFrom limit (g.searchStart c t) := by
  rw [enumerate, visit, if_pos ⟨h, hc, ht⟩, visitFrom_of_accepts _ fun _ _ => rfl,
    List.foldl_flip_cons_eq_append']
  simp

theorem enumerate_of_outside {c t : Qubit} (h : ¬ (c ≠ t ∧ c < g.size ∧ t < g.size)) :
    g.enumerate limit c t = [] := by
  rw [enumerate, visit, if_neg h, List.reverse_nil]

end QubitRouting.Graph
