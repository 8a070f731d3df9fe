import QubitRouting.Proofs.Device.Coupling
import QubitRouting.Proofs.Search.Bound

/-!
Paths of the search and walks on the device. The control can walk along any simple walk to a
neighbour of the target, unless an edge is met before; and since a move brings the places at most
one edge closer, no path has fewer relays than a shortest walk between the places has qubits.
-/

namespace QubitRouting.Graph

variable {g : Graph} {limit : Option Nat} {c₀ t₀ c t : Qubit} {relays : List Move}

theorem exhausted_eq_false_iff :
    exhausted limit relays = false ↔ ∀ k ∈ limit, relays.length < k := by
  cases limit with
  | none => simp [exhausted]
  | some k => simp [exhausted]

theorem exists_native_of_coupled {x : Qubit} (h : g.coupled c x = true) :
    ∃ heading, Relay.Native g (Carried.control.relay heading c t x) := by
  rcases Bool.or_eq_true_iff.1 h with h | h
  · exact ⟨.along, h⟩
  · exact ⟨.against, h⟩

theorem exists_extends_of_coupled {s : SearchState} {x : Qubit}
    (hlast : g.terminal? s.control s.target = none) (hopen : exhausted limit s.relays = false)
    (hx : x ∈ s.unvisited) (hadj : g.coupled s.control x = true) :
    ∃ next, g.Extends limit s next ∧ next.control = x ∧ next.target = s.target ∧
      next.unvisited = s.unvisited.erase x ∧ next.relays.length = s.relays.length + 1 := by
  obtain ⟨heading, native⟩ := exists_native_of_coupled (t := s.target) hadj
  let hop := Carried.control.relay heading s.control s.target x
  have hmem : ⟨x, s.target, s.unvisited.erase x, s.relays ++ [.relay hop]⟩ ∈ s.successors g :=
    mem_successors.2 ⟨x, hx, .control, heading, native, rfl⟩
  exact ⟨_, ⟨hlast, hopen, hmem⟩, rfl, rfl, rfl, by simp⟩

def Clear (s : SearchState) (w : g.coupling.Walk c t) : Prop :=
  ∀ q ∈ w.support, q = c ∨ q = t ∨ q ∈ s.unvisited

section Clear

variable {s next : SearchState} {x : Qubit} {hadj : g.coupling.Adj c x} {w : g.coupling.Walk x t}

theorem Clear.mem_unvisited (h : Clear s (.cons hadj w)) (hxt : x ≠ t) : x ∈ s.unvisited := by
  have hmem : x ∈ (SimpleGraph.Walk.cons hadj w).support := by simp
  rcases h x hmem with hx | hx | hx
  · exact absurd hx hadj.ne.symm
  · exact absurd hx hxt
  · exact hx

/-- A simple walk does not come back, so the rest of it stays clear. -/
theorem Clear.step (h : Clear s (.cons hadj w)) (hfresh : c ∉ w.support)
    (hnext : next.unvisited = s.unvisited.erase x) : Clear next w := by
  intro q hq
  by_cases hqx : q = x
  · exact Or.inl hqx
  · have hmem : q ∈ (SimpleGraph.Walk.cons hadj w).support := by simp [hq]
    rcases h q hmem with rfl | hqt | hqu
    · exact absurd hq hfresh
    · exact Or.inr (Or.inl hqt)
    · rw [hnext]
      exact Or.inr (Or.inr ((List.mem_erase_of_ne hqx).2 hqu))

end Clear

/-- The control walks along a simple walk until the places share an edge. -/
theorem exists_terminal_of_walk (w : g.coupling.Walk c t) {s : SearchState} (hc : s.control = c)
    (ht : s.target = t) (hct : c ≠ t) (hw : w.IsPath) (hclear : Clear s w)
    (hl : ∀ k ∈ limit, s.relays.length + w.length ≤ k + 1) :
    ∃ u last, g.Reaches limit s u ∧ g.terminal? u.control u.target = some last ∧
      u.relays.length + 1 ≤ s.relays.length + w.length := by
  induction w generalizing s with
  | nil => exact absurd rfl hct
  | @cons c x t hadj w ih =>
    rw [SimpleGraph.Walk.length_cons] at hl ⊢
    cases hlast : g.terminal? s.control s.target with
    | some last => exact ⟨s, last, .refl, hlast, by omega⟩
    | none =>
      obtain ⟨hpath, hfresh⟩ := (SimpleGraph.Walk.cons_isPath_iff hadj w).1 hw
      have hxt : x ≠ t := by
        rintro rfl
        rw [terminal?_eq_none, hc, ht] at hlast
        rw [coupling_adj, hlast] at hadj
        cases hadj
      have hopen : exhausted limit s.relays = false := by
        rw [exhausted_eq_false_iff]
        intro k hk
        have hpos : w.length ≠ 0 := fun h => hxt (SimpleGraph.Walk.eq_of_length_eq_zero h)
        have := hl k hk
        omega
      obtain ⟨next, hstep, hcontrol, htarget, hunvisited, hnext⟩ :=
        exists_extends_of_coupled hlast hopen (hclear.mem_unvisited hxt) (hc ▸ hadj)
      have hmoves : ∀ k ∈ limit, next.relays.length + w.length ≤ k + 1 := by
        intro k hk
        have := hl k hk
        omega
      obtain ⟨u, last, hreach, hu, hlen⟩ :=
        ih hcontrol (htarget.trans ht) hxt hpath (hclear.step hfresh hunvisited) hmoves
      exact ⟨u, last, .head hstep hreach, hu, by omega⟩

/-- A shortest walk gives a path with at most as many relays as the walk has qubits in between. -/
theorem exists_path_of_edist {d : Nat} (h : c ≠ t) (hc : c < g.size)
    (hd : g.coupling.edist c t = d) (hl : ∀ k ∈ limit, d - 1 ≤ k) :
    ∃ u last, g.Reaches limit (g.searchStart c t) u ∧
      g.terminal? u.control u.target = some last ∧ u.relays.length + 1 ≤ d := by
  have hreach : g.coupling.Reachable c t := by
    rw [← SimpleGraph.edist_ne_top_iff_reachable, hd]
    exact ENat.natCast_ne_top d
  obtain ⟨w, hw, hlen⟩ := hreach.exists_path_of_dist
  have hwd : w.length = d := by
    rw [hlen]
    exact_mod_cast hreach.coe_dist_eq_edist.trans hd
  have hstart : (g.searchStart c t).relays.length = 0 := rfl
  have hclear : Clear (g.searchStart c t) w := by
    intro q hq
    have hlt : q < g.size := lt_of_reachable (w.takeUntil q hq).reachable hc
    by_cases hqc : q = c
    · exact Or.inl hqc
    · by_cases hqt : q = t
      · exact Or.inr (Or.inl hqt)
      · exact Or.inr (Or.inr (by simp [searchStart, qubits, hlt, hqc, hqt]))
  have hmoves : ∀ k ∈ limit, (g.searchStart c t).relays.length + w.length ≤ k + 1 := by
    intro k hk
    have := hl k hk
    omega
  obtain ⟨u, last, hu, hlast, hrelays⟩ := exists_terminal_of_walk w rfl rfl h hw hclear hmoves
  exact ⟨u, last, hu, hlast, by omega⟩

/-- Each move brings the places at most one edge closer. -/
theorem Leads.edist_le (h : g.Leads c₀ t₀ relays c t) :
    g.coupling.edist c₀ t₀ ≤ relays.length + g.coupling.edist c t := by
  induction h with
  | start => simp
  | @hop relays c t x carried heading _ _ _ native ih =>
    have hadj : g.coupling.Adj (carried.relay heading c t x).source
        (carried.relay heading c t x).dest := native.coupled
    have hstep : g.coupling.edist c t ≤
        1 + g.coupling.edist (carried.places c t x).1 (carried.places c t x).2 := by
      cases carried with
      | control =>
        rw [← SimpleGraph.edist_eq_one_iff_adj.2 hadj]
        exact SimpleGraph.edist_triangle
      | target =>
        rw [← SimpleGraph.edist_eq_one_iff_adj.2 hadj.symm, add_comm]
        exact SimpleGraph.edist_triangle
    rw [List.length_append, List.length_singleton, Nat.cast_add, Nat.cast_one, add_assoc]
    exact ih.trans (add_le_add_right hstep _)

theorem Leads.edist_le_succ {last : Move} (h : g.Leads c₀ t₀ relays c t)
    (hlast : g.terminal? c t = some last) :
    g.coupling.edist c₀ t₀ ≤ (relays.length + 1 : Nat) := by
  have hadj : g.coupling.Adj c t := (terminal?_eq_some_iff.1 hlast).1
  have hle := h.edist_le
  rw [SimpleGraph.edist_eq_one_iff_adj.2 hadj] at hle
  exact_mod_cast hle

theorem Reaches.length_le {s u : SearchState} (h : g.Reaches limit s u)
    (hs : ∀ k ∈ limit, s.relays.length ≤ k) : ∀ k ∈ limit, u.relays.length ≤ k := by
  induction h with
  | refl => exact hs
  | @tail v u _ step _ =>
    obtain ⟨x, -, carried, heading, -, rfl⟩ := mem_successors.1 step.2.2
    intro k hk
    have hlt := exhausted_eq_false_iff.1 step.2.1 k hk
    simpa using hlt

def InReach (g : Graph) (limit : Option Nat) (c t : Qubit) : Prop :=
  ∃ d : Nat, g.coupling.edist c t = d ∧ ∀ k ∈ limit, d - 1 ≤ k

theorem candidates_ne_nil_iff (limit : Option Nat) (h : c ≠ t) (hc : c < g.size) (ht : t < g.size) :
    g.candidates limit c t ≠ [] ↔ g.InReach limit c t := by
  have hpaths : g.candidates limit c t ≠ [] ↔ ∃ p, p ∈ g.pathsFrom limit (g.searchStart c t) := by
    rw [candidates, enumerate_eq g limit h hc ht, ne_eq, List.flatMap_eq_nil_iff, not_forall]
    simp [offered]
  rw [hpaths]
  constructor
  · rintro ⟨p, hp⟩
    obtain ⟨u, last, hreach, hlast, rfl⟩ := mem_pathsFrom hp
    have leads := (reaches_invariant (start_invariant h hc ht) hreach).leads
    have hle := leads.edist_le_succ hlast
    obtain ⟨d, hd⟩ := ENat.ne_top_iff_exists.1 (ne_top_of_le_ne_top (ENat.natCast_ne_top _) hle)
    refine ⟨d, hd.symm, fun k hk => ?_⟩
    have hlen := hreach.length_le (fun _ _ => Nat.zero_le _) k hk
    rw [← hd] at hle
    have : d ≤ u.relays.length + 1 := by exact_mod_cast hle
    omega
  · rintro ⟨d, hd, hl⟩
    obtain ⟨u, last, hreach, hlast, -⟩ := exists_path_of_edist h hc hd hl
    exact ⟨_, mem_pathsFrom_of_reaches hreach hlast⟩

theorem walkingCost?_eq_some {bound : Nat} (h : g.walkingCost? limit c t = some bound) :
    ∃ d, g.distance? c t = some d ∧ (∀ k ∈ limit, d - 1 ≤ k) ∧ bound = 12 * (d - 1) + 4 := by
  obtain ⟨d, hd, hb⟩ := Option.bind_eq_some_iff.1 h
  split_ifs at hb with hzero hlimit
  refine ⟨d, hd, ?_, ?_⟩
  · intro k hk
    rw [Option.mem_def] at hk
    simpa [hk] using hlimit
  · have := Option.some.inj hb
    simp only [Move.relayCost, Move.flipCost] at this
    omega

/-- A shortest walk gives a path that costs a relay for each qubit in between and at most a flip. -/
theorem exists_candidate_of_edist {d : Nat} (h : c ≠ t) (hc : c < g.size) (ht : t < g.size)
    (hd : g.coupling.edist c t = d) (hl : ∀ k ∈ limit, d - 1 ≤ k) :
    ∃ p ∈ g.candidates limit c t, p.roundTrip ≤ 12 * (d - 1) + 4 := by
  obtain ⟨u, last, hreach, hlast, hlen⟩ := exists_path_of_edist h hc hd hl
  have leads := (reaches_invariant (start_invariant h hc ht) hreach).leads
  obtain ⟨hcost, hflip⟩ := cost_terminal hlast
  have hmem : u.relays ++ [last] ∈ g.candidates limit c t := by
    rw [candidates, enumerate_eq g limit h hc ht, List.mem_flatMap]
    exact ⟨_, mem_pathsFrom_of_reaches hreach hlast, List.mem_cons_self⟩
  refine ⟨_, hmem, ?_⟩
  rw [Path.roundTrip_concat leads.isRelays last hcost]
  omega

theorem exists_candidate_le_walkingCost {bound : Nat} (h : c ≠ t)
    (hb : g.walkingCost? limit c t = some bound) :
    ∃ p ∈ g.candidates limit c t, p.roundTrip ≤ bound := by
  obtain ⟨d, hd, hl, rfl⟩ := walkingCost?_eq_some hb
  obtain ⟨hc, ht, hd⟩ := distance?_eq_some_iff.1 hd
  exact exists_candidate_of_edist h hc ht hd hl

end QubitRouting.Graph
