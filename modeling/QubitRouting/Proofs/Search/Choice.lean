import QubitRouting.Proofs.Search.Pruning
import QubitRouting.Proofs.Search.Walking

/-!
What the search for the cheapest path answers, as long as no cost leaves its width: the first
candidate of least cost, and that there is no path only where there is no candidate.
-/

namespace QubitRouting.Graph

variable {g : Graph} {limit : Option Nat} {c t : Qubit}

theorem candidatesFrom_start (h : c ≠ t) (hc : c < g.size) (ht : t < g.size) :
    g.candidatesFrom limit (g.searchStart c t) = g.candidates limit c t := by
  rw [candidatesFrom, candidates, enumerate_eq g limit h hc ht]

/-- The choice from all candidates is not above a ceiling. -/
theorem not_above_choice (h : c ≠ t) :
    ¬ Above (g.walkingCost? limit c t) ((g.candidates limit c t).foldl choose none) := by
  rintro ⟨bound, hb, habove⟩
  obtain ⟨p, hp, hle⟩ := exists_candidate_le_walkingCost h hb
  rcases foldl_choose (g.candidates limit c t) with ⟨hnil, -⟩ | ⟨cost, q, hsome, first⟩
  · rw [hnil] at hp
    cases hp
  · have := first.least p hp
    have := habove cost q hsome
    omega

/-- The pruned search makes the choice from all candidates. -/
theorem cheapest_of_fits (h : c ≠ t) (hc : c < g.size) (ht : t < g.size)
    (hfits : g.cheapest limit c t ≠ .error (.defect .overflow)) :
    (g.candidates limit c t = [] ∧ g.cheapest limit c t = .error (.unreachable c t)) ∨
      ∃ cost p, g.cheapest limit c t = .ok (cost, p) ∧
        FirstLeast (g.candidates limit c t) cost p := by
  unfold cheapest visit at hfits ⊢
  simp only [if_pos (And.intro h (And.intro hc ht))] at hfits ⊢
  have hoverflow : (g.visitFrom limit (CheapestSoFar.visitor (g.walkingCost? limit c t))
      (g.searchStart c t) ⟨none, false⟩).overflow = false := by
    rw [← Bool.not_eq_true]
    exact fun ho => hfits (by rw [if_pos ho])
  obtain ⟨-, agrees⟩ := search_agrees h (start_invariant h hc ht) _ none hoverflow
  have hbest := (agrees (Or.inl rfl)).resolve_right fun hab => by
    rw [candidatesFrom_start h hc ht] at hab
    exact not_above_choice h hab.2
  rw [candidatesFrom_start h hc ht] at hbest
  rw [hoverflow, hbest]
  rcases foldl_choose (g.candidates limit c t) with ⟨hnil, hnone⟩ | ⟨cost, q, hsome, first⟩
  · exact Or.inl ⟨hnil, by rw [hnone]; rfl⟩
  · exact Or.inr ⟨cost, q, by rw [hsome]; rfl, first⟩

end QubitRouting.Graph
