import QubitRouting.Proofs.Search.Meaning

/-!
Costs of the paths that a search chooses from, and the lower bound for what lies below a state.
Merging the relays at the end pays off for at most two of them, so what the bound charges for such a
run never shrinks as the run grows, and never exceeds the price of its relays.
-/

namespace QubitRouting

namespace Path

theorem cost_relays_append {p : Path} (hp : p.Relays) (q : Path) :
    cost (p ++ q) = 6 * p.length + cost q := by
  induction p with
  | nil => simp
  | cons m p ih =>
    obtain ⟨hm, hrest⟩ := List.forall_mem_cons.1 hp
    cases m with
    | relay r =>
      have step : cost (.relay r :: p ++ q) = 6 + cost (p ++ q) := rfl
      rw [step, ih hrest, List.length_cons]
      omega
    | _ => cases hm

theorem roundTrip_concat {p : Path} (hp : p.Relays) (last : Move) (hl : cost [last] = last.cost) :
    roundTrip (p ++ [last]) = 12 * p.length + last.cost := by
  have hlast : ((p ++ [last]).getLast?.map Move.cost).getD 0 = last.cost := by simp
  rw [roundTrip, hlast, cost_relays_append hp, hl]
  omega

theorem Nested.costFrom {g : Graph} {t a b : Qubit} {p : Path} (h : Nested g t a b p) (w : Nat) :
    costFrom (some w) p + (w + 2) = (w + 2) * 2 ^ p.length := by
  induction h generalizing w with
  | nil => simp [Path.costFrom]
  | cons _ _ _ _ ih =>
    have step := ih (2 * w + 2)
    have double : ∀ k, (w + 2) * 2 ^ (k + 1) = (2 * w + 2 + 2) * 2 ^ k := fun k => by ring
    rw [Path.costFrom, List.length_cons, double]
    omega

theorem Nested.cost {g : Graph} {t a b : Qubit} {p : Path} (h : Nested g t a b p) (hp : p ≠ []) :
    cost p + 3 = 3 * 2 ^ p.length := by
  cases h with
  | nil => exact absurd rfl hp
  | cons _ _ _ h =>
    have rest := h.costFrom (Move.cnot3Cost + 1)
    rw [Path.cost, Path.costFrom, List.length_cons, Nat.pow_succ]
    simp only [Move.cnot3Cost] at rest ⊢
    omega

theorem Nested.getLast?_cost {g : Graph} {t a b : Qubit} {p : Path} (h : Nested g t a b p)
    (hp : p ≠ []) : p.getLast?.map Move.cost = some 3 := by
  induction h with
  | nil => exact absurd rfl hp
  | @cons b x p _ _ _ _ ih =>
    cases p with
    | nil => rfl
    | cons m p => exact ih (by simp)

theorem roundTrip_nested {g : Graph} {t a b : Qubit} {p run : Path} (hp : p.Relays)
    (h : Nested g t a b run) (hrun : run ≠ []) :
    roundTrip (p ++ run) + 9 = 12 * p.length + 6 * 2 ^ run.length := by
  have hcost := h.cost hrun
  have hlast : (p ++ run).getLast?.map Move.cost = some 3 := by
    rw [List.getLast?_append_of_ne_nil p hrun]
    exact h.getLast?_cost hrun
  have hpow : 2 ^ 1 ≤ 2 ^ run.length :=
    Nat.pow_le_pow_right (by decide) (List.length_pos_of_ne_nil hrun)
  rw [roundTrip, hlast, cost_relays_append hp, Option.getD_some]
  omega

end Path

def mergedBound : Nat → Nat
  | 0 => 0
  | 1 => 3
  | 2 => 15
  | k => 12 * k

theorem mergedBound_le (k : Nat) : mergedBound k ≤ 12 * k := by
  unfold mergedBound
  split <;> omega

theorem mergedBound_succ (k : Nat) : mergedBound k ≤ mergedBound (k + 1) := by
  match k with
  | 0 => decide
  | 1 => decide
  | 2 => decide
  | k + 3 =>
    simp only [mergedBound]
    omega

/-- No merging of a run is cheaper than what is charged for it. -/
theorem mergedBound_le_merged {k : Nat} (h : 0 < k) : mergedBound k + 9 ≤ 6 * 2 ^ k := by
  match k, h with
  | 1, _ => decide
  | 2, _ => decide
  | k + 3, _ =>
    have : k < 2 ^ k := Nat.lt_two_pow_self
    simp only [mergedBound, Nat.pow_add]
    omega

namespace Graph

variable {g : Graph} {limit : Option Nat} {c₀ t₀ c t : Qubit} {relays : List Move}

theorem cabRun_le (relays : List Move) : cabRun relays ≤ relays.length := by
  have := (List.takeWhile_sublist (l := relays.reverse) Move.isCab).length_le
  rwa [List.length_reverse] at this

theorem lowerBound_eq (relays : List Move) :
    lowerBound relays = (relays.length - cabRun relays) * 12 + mergedBound (cabRun relays) := by
  unfold lowerBound mergedBound cabRun
  simp only [Move.relayCost, Move.cnot3Cost]
  rcases (relays.reverse.takeWhile Move.isCab).length with _ | _ | _ | k
  · rfl
  · rfl
  · rfl
  · simp only
    omega

theorem lowerBound_le_relays (relays : List Move) : lowerBound relays ≤ 12 * relays.length := by
  have hrun := cabRun_le relays
  have hmerged := mergedBound_le (cabRun relays)
  rw [lowerBound_eq]
  omega

theorem lowerBound_le_concat (relays : List Move) (m : Move) :
    lowerBound relays ≤ lowerBound (relays ++ [m]) := by
  have hrun := cabRun_le relays
  rw [lowerBound_eq, lowerBound_eq (relays ++ [m]), cabRun_concat, List.length_append,
    List.length_singleton]
  cases m.isCab with
  | true =>
    have hmerged := mergedBound_succ (cabRun relays)
    simp only [if_true]
    omega
  | false =>
    have hmerged := mergedBound_le (cabRun relays)
    simp only [Bool.false_eq_true, if_false]
    omega

theorem lowerBound_le_of_reaches {s u : SearchState} (h : g.Reaches limit s u) :
    lowerBound s.relays ≤ lowerBound u.relays := by
  induction h with
  | refl => exact le_rfl
  | @tail v u _ step ih =>
    obtain ⟨x, -, carried, heading, -, rfl⟩ := mem_successors.1 step.2.2
    exact ih.trans (lowerBound_le_concat v.relays _)

theorem cost_terminal {last : Move} (h : g.terminal? c t = some last) :
    Path.cost [last] = last.cost ∧ last.cost ≤ 4 := by
  rcases terminal?_eq_some h with ⟨-, rfl⟩ | ⟨-, rfl⟩
  · exact ⟨rfl, Nat.zero_le _⟩
  · exact ⟨rfl, le_rfl⟩

theorem Leads.lowerBound_le_roundTrip {last : Move} (h : g.Leads c₀ t₀ relays c t)
    (hlast : g.terminal? c t = some last) :
    lowerBound relays ≤ Path.roundTrip (relays ++ [last]) := by
  have hbound := lowerBound_le_relays relays
  rw [Path.roundTrip_concat h.isRelays last (cost_terminal hlast).1]
  omega

theorem Leads.lowerBound_le_merged {last : Move} {merged : Path} (h : g.Leads c₀ t₀ relays c t)
    (h₀ : c₀ ≠ t₀) (hlast : g.terminal? c t = some last)
    (hm : Path.mergeRelays? (relays ++ [last]) = some merged) :
    lowerBound relays ≤ Path.roundTrip merged := by
  obtain ⟨a, before, run, rfl, leads, nested, hne, -, hrun, hall⟩ := h.of_mergeRelays h₀ hlast hm
  have hcost := Path.roundTrip_nested leads.isRelays nested hne
  have hmerged := mergedBound_le_merged (List.length_pos_of_ne_nil hne)
  rw [lowerBound_eq, ← hrun]
  omega

theorem lowerBound_le_offered {s : SearchState} {p q : Path} (hs : g.SearchInvariant c₀ t₀ s)
    (h₀ : c₀ ≠ t₀) (hp : p ∈ g.pathsFrom limit s) (hq : q ∈ offered p) :
    lowerBound s.relays ≤ q.roundTrip := by
  obtain ⟨u, last, hreach, hlast, rfl⟩ := mem_pathsFrom hp
  have leads := (reaches_invariant hs hreach).leads
  refine (lowerBound_le_of_reaches hreach).trans ?_
  rcases mem_offered.1 hq with rfl | hm
  · exact leads.lowerBound_le_roundTrip hlast
  · exact leads.lowerBound_le_merged h₀ hlast hm

end Graph

end QubitRouting
