import Mathlib.Data.List.Nodup
import Mathlib.Data.Prod.Lex
import QubitRouting.Proofs.Search.Walking

/-!
The paths of a search, described apart from it. A path is found exactly when its relays enter fresh
qubits over native edges and stop at the first places that share an edge; it is found once, and the
paths come in the lexicographic order of their relays.
-/

namespace QubitRouting

/-- The order of the relays to one qubit: control before target, along an edge before against it. -/
def Relay.rank (r : Relay) : ℕ :=
  match r.carried, r.heading with
  | .control, .along => 0
  | .control, .against => 1
  | .target, .along => 2
  | .target, .against => 3

def Relay.order (r : Relay) : ℕ ×ₗ ℕ := toLex (r.dest, r.rank)

def Move.carry (places : Qubit × Qubit) : Move → Qubit × Qubit
  | .relay ⟨.control, _, _, _, x⟩ => (x, places.2)
  | .relay ⟨.target, _, _, _, x⟩ => (places.1, x)
  | _ => places

namespace Path

def places (c t : Qubit) (p : Path) : Qubit × Qubit := p.foldl Move.carry (c, t)

def relayList (p : Path) : List Relay :=
  p.filterMap fun
    | .relay r => some r
    | _ => none

def visited (c t : Qubit) (p : Path) : List Qubit := c :: t :: p.relayList.map Relay.dest

def order (p : Path) : List (ℕ ×ₗ ℕ) := p.relayList.map Relay.order

theorem relayList_append (p q : Path) : relayList (p ++ q) = p.relayList ++ q.relayList :=
  List.filterMap_append

theorem visited_append (c t : Qubit) (p q : Path) :
    visited c t (p ++ q) = visited c t p ++ q.relayList.map Relay.dest := by
  rw [visited, relayList_append, List.map_append]
  rfl

theorem visited_concat (c t : Qubit) (p : Path) (r : Relay) :
    visited c t (p ++ [.relay r]) = visited c t p ++ [r.dest] := visited_append c t p [.relay r]

/-- Of two paths that part with different relays the order of these decides. -/
theorem order_lt_of_parting {p q before : Path} {r r' : Relay} (h : r.order < r'.order)
    (hp : before ++ [.relay r] <+: p) (hq : before ++ [.relay r'] <+: q) : p.order < q.order := by
  obtain ⟨rest, rfl⟩ := hp
  obtain ⟨rest', rfl⟩ := hq
  simp only [order, relayList_append, List.map_append, List.append_assoc]
  apply List.append_left_lt
  exact List.cons_lt_cons_iff.2 (Or.inl h)

end Path

@[simp] theorem Carried.dest_relay (carried : Carried) (heading : Heading) (c t x : Qubit) :
    (carried.relay heading c t x).dest = x := by
  cases carried <;> rfl

@[simp] theorem Carried.carry_relay (carried : Carried) (heading : Heading) (c t x : Qubit) :
    Move.carry (c, t) (.relay (carried.relay heading c t x)) = carried.places c t x := by
  cases carried <;> rfl

namespace Graph

variable {g : Graph} {limit : Option Nat} {c₀ t₀ c t : Qubit} {relays : List Move}
  {s u : SearchState}

/-- Relays from the places `c₀` and `t₀` to `c` and `t` that enter no qubit twice, nor one of the
two, and that pass no places that share an edge. -/
structure Simple (g : Graph) (c₀ t₀ : Qubit) (relays : List Move) (c t : Qubit) : Prop where
  leads : g.Leads c₀ t₀ relays c t
  distinct : (Path.visited c₀ t₀ relays).Nodup
  uncoupled : ∀ k < relays.length, let places := Path.places c₀ t₀ (relays.take k)
    g.coupled places.1 places.2 = false

/-- Simple relays, as many as the limit admits, to places that share an edge, and the CNOT of these
places: the native one if there is, and else the reversed one turned around. -/
def IsSimplePath (g : Graph) (limit : Option Nat) (c₀ t₀ : Qubit) (p : Path) : Prop :=
  ∃ relays c t, g.Simple c₀ t₀ relays c t ∧ (∀ k ∈ limit, relays.length ≤ k) ∧
    g.coupled c t = true ∧ p = relays ++ [if g.adjacent c t then .nop c t else .flip c t]

theorem Leads.places (h : g.Leads c₀ t₀ relays c t) : Path.places c₀ t₀ relays = (c, t) := by
  induction h with
  | start => rfl
  | @hop relays c t x carried heading _ _ _ _ ih =>
    rw [Path.places] at ih
    rw [Path.places, List.foldl_append, ih]
    exact carried.carry_relay heading c t x

namespace Simple

theorem start (h : c₀ ≠ t₀) : g.Simple c₀ t₀ [] c₀ t₀ where
  leads := .start
  distinct := by simp [Path.visited, Path.relayList, h]
  uncoupled := nofun

theorem start_apart (h : g.Simple c₀ t₀ relays c t) : c₀ ≠ t₀ := by
  rintro rfl
  exact (List.nodup_cons.1 h.distinct).1 List.mem_cons_self

/-- Simple relays may go on from uncoupled places, to a fresh qubit. -/
theorem hop {x : Qubit} {carried : Carried} {heading : Heading} (h : g.Simple c₀ t₀ relays c t)
    (hopen : g.coupled c t = false) (hx : x ∉ Path.visited c₀ t₀ relays) (hxc : x ≠ c)
    (hxt : x ≠ t) (native : Relay.Native g (carried.relay heading c t x)) :
    g.Simple c₀ t₀ (relays ++ [.relay (carried.relay heading c t x)])
      (carried.places c t x).1 (carried.places c t x).2 where
  leads := h.leads.hop hxc hxt native
  distinct := by
    rw [Path.visited_concat, Carried.dest_relay]
    refine List.nodup_append.2 ⟨h.distinct, List.nodup_singleton x, fun a ha b hb => ?_⟩
    obtain rfl := List.mem_singleton.1 hb
    exact fun e => hx (e ▸ ha)
  uncoupled := by
    intro k hk
    rw [List.length_append, List.length_singleton] at hk
    rw [List.take_append_of_le_length (Nat.le_of_lt_succ hk)]
    rcases Nat.lt_succ_iff_lt_or_eq.1 hk with hk | rfl
    · exact h.uncoupled k hk
    · rw [List.take_length, h.leads.places]
      exact hopen

theorem before_hop {m : Move} {a b : Qubit} (h : g.Simple c₀ t₀ (relays ++ [m]) c t)
    (hleads : g.Leads c₀ t₀ relays a b) :
    g.Simple c₀ t₀ relays a b ∧ g.coupled a b = false := by
  have huncoupled : ∀ k ≤ relays.length,
      g.coupled (Path.places c₀ t₀ (relays.take k)).1 (Path.places c₀ t₀ (relays.take k)).2 =
        false := by
    intro k hk
    have := h.uncoupled k (by simpa using Nat.lt_succ_of_le hk)
    rwa [List.take_append_of_le_length hk] at this
  refine ⟨⟨hleads, ?_, fun k hk => huncoupled k hk.le⟩, ?_⟩
  · have hdistinct := h.distinct
    rw [Path.visited_append] at hdistinct
    exact (List.nodup_append.1 hdistinct).1
  · have := huncoupled relays.length le_rfl
    rwa [List.take_length, hleads.places] at this

end Simple

/-- What a search has made of its moves: they are simple, and the qubits that may still be entered
are, in ascending order, those that are neither places of the start nor were entered. -/
structure Explored (g : Graph) (c₀ t₀ : Qubit) (s : SearchState) : Prop extends
    g.SearchInvariant c₀ t₀ s where
  simple : g.Simple c₀ t₀ s.relays s.control s.target
  fresh : ∀ q, q ∈ s.unvisited ↔ q < g.size ∧ q ∉ Path.visited c₀ t₀ s.relays
  ascending : s.unvisited.Pairwise (· < ·)

theorem explored_start (h : c ≠ t) (hc : c < g.size) (ht : t < g.size) :
    g.Explored c t (g.searchStart c t) where
  toSearchInvariant := start_invariant h hc ht
  simple := .start h
  fresh := by
    intro q
    simp [searchStart, qubits, Path.visited, Path.relayList]
  ascending := List.pairwise_lt_range.filter _

theorem Explored.step (hs : g.Explored c₀ t₀ s) (h : g.Extends limit s u) :
    g.Explored c₀ t₀ u := by
  have invariant := step_preserves_invariant hs.toSearchInvariant h.2.2
  obtain ⟨x, hx, carried, heading, native, rfl⟩ := mem_successors.1 h.2.2
  have hxc : x ≠ s.control := fun e => hs.control_visited (e ▸ hx)
  have hxt : x ≠ s.target := fun e => hs.target_visited (e ▸ hx)
  obtain ⟨-, hfresh⟩ := (hs.fresh x).1 hx
  refine ⟨invariant, ?_, ?_, ?_⟩
  · exact hs.simple.hop (terminal?_eq_none.1 h.1) hfresh hxc hxt native
  · intro q
    rw [hs.unvisited_nodup.mem_erase_iff, hs.fresh, Path.visited_concat, Carried.dest_relay,
      List.mem_append, List.mem_singleton, not_or]
    tauto
  · exact hs.ascending.sublist (List.erase_sublist)

theorem reaches_explored (hs : g.Explored c₀ t₀ s) (h : g.Reaches limit s u) :
    g.Explored c₀ t₀ u := by
  induction h with
  | refl => exact hs
  | tail _ step ih => exact ih.step step

/-- Simple relays within the limit are those of a state that the search reaches. -/
theorem Simple.exists_reaches (h : g.Simple c₀ t₀ relays c t) (hc : c₀ < g.size) (ht : t₀ < g.size)
    (hl : ∀ k ∈ limit, relays.length ≤ k) :
    ∃ u, g.Reaches limit (g.searchStart c₀ t₀) u ∧ u.control = c ∧ u.target = t ∧
      u.relays = relays := by
  have leads := h.leads
  induction leads with
  | start => exact ⟨_, .refl, rfl, rfl, rfl⟩
  | @hop relays c t x carried heading leads _ _ native ih =>
    obtain ⟨before, hopen⟩ := h.before_hop leads
    have hlength : ∀ k ∈ limit, relays.length < k := by
      intro k hk
      have := hl k hk
      rwa [List.length_append, List.length_singleton] at this
    obtain ⟨s, hreach, rfl, rfl, rfl⟩ := ih before (fun k hk => (hlength k hk).le)
    have explored := reaches_explored (explored_start h.start_apart hc ht) hreach
    have hlt := native.lt.2
    have hdistinct := h.distinct
    rw [Carried.dest_relay] at hlt
    rw [Path.visited_concat, Carried.dest_relay] at hdistinct
    have hfresh : x ∉ Path.visited c₀ t₀ s.relays := fun hmem =>
      (List.nodup_append.1 hdistinct).2.2 x hmem x (List.mem_singleton_self x) rfl
    have hx : x ∈ s.unvisited := (explored.fresh x).2 ⟨hlt, hfresh⟩
    have hnext := mem_successors.2 ⟨x, hx, carried, heading, native, rfl⟩
    have hextends : g.Extends limit s _ :=
      ⟨terminal?_eq_none.2 hopen, exhausted_eq_false_iff.2 hlength, hnext⟩
    exact ⟨_, hreach.tail hextends, rfl, rfl, rfl⟩

theorem mem_pathsFrom_start_iff (h : c ≠ t) (hc : c < g.size) (ht : t < g.size) {p : Path} :
    p ∈ g.pathsFrom limit (g.searchStart c t) ↔ g.IsSimplePath limit c t p := by
  constructor
  · intro hp
    obtain ⟨u, last, hreach, hlast, rfl⟩ := mem_pathsFrom hp
    obtain ⟨hcoupled, rfl⟩ := terminal?_eq_some_iff.1 hlast
    have explored := reaches_explored (explored_start h hc ht) hreach
    exact ⟨_, _, _, explored.simple, hreach.length_le fun _ _ => Nat.zero_le _, hcoupled, rfl⟩
  · rintro ⟨relays, a, b, simple, hl, hcoupled, rfl⟩
    obtain ⟨u, hreach, rfl, rfl, rfl⟩ := simple.exists_reaches hc ht hl
    exact mem_pathsFrom_of_reaches hreach (terminal?_eq_some_iff.2 ⟨hcoupled, rfl⟩)

section Order

theorem hops_sublist (g : Graph) (c t x : Qubit) :
    (g.hops c t x).Sublist [(.cab c x, x, t), (.cba c x, x, t), (.tab t x, c, x),
      (.tba t x, c, x)] := by
  have step : ∀ (b : Bool) (hop : Move × Qubit × Qubit),
      (if b then [hop] else []).Sublist [hop] := by
    intro b hop
    cases b <;> simp
  exact (((step _ _).append (step _ _)).append (step _ _)).append (step _ _)

def Precedes (s a b : SearchState) : Prop :=
  ∃ r r' : Relay, a.relays = s.relays ++ [.relay r] ∧ b.relays = s.relays ++ [.relay r'] ∧
    r.order < r'.order

theorem pairwise_hops (g : Graph) (c t x : Qubit) :
    (g.hops c t x).Pairwise fun hop hop' => ∃ r r' : Relay, hop.1 = .relay r ∧
      hop'.1 = .relay r' ∧ r.order < r'.order := by
  refine List.Pairwise.sublist (g.hops_sublist c t x) ?_
  simp [Relay.order, Relay.rank, Prod.Lex.toLex_lt_toLex]

theorem pairwise_successors (hs : s.unvisited.Pairwise (· < ·)) :
    (s.successors g).Pairwise (Precedes s) := by
  rw [SearchState.successors, List.pairwise_flatMap]
  constructor
  · intro x _
    rw [List.pairwise_map]
    refine (g.pairwise_hops s.control s.target x).imp ?_
    rintro ⟨_, _⟩ ⟨_, _⟩ ⟨r, r', rfl, rfl, hlt⟩
    exact ⟨r, r', rfl, rfl, hlt⟩
  · refine hs.imp ?_
    intro x y hxy a ha b hb
    obtain ⟨hop, hmem, rfl⟩ := List.mem_map.1 ha
    obtain ⟨hop', hmem', rfl⟩ := List.mem_map.1 hb
    obtain ⟨carried, heading, -, rfl⟩ := mem_hops.1 hmem
    obtain ⟨carried', heading', -, rfl⟩ := mem_hops.1 hmem'
    refine ⟨_, _, rfl, rfl, ?_⟩
    rw [Relay.order, Relay.order, Prod.Lex.toLex_lt_toLex]
    exact Or.inl (by simpa using hxy)

theorem Reaches.relays_prefix (h : g.Reaches limit s u) : s.relays <+: u.relays := by
  induction h with
  | refl => exact List.prefix_rfl
  | @tail v u _ step ih =>
    obtain ⟨x, -, carried, heading, -, rfl⟩ := mem_successors.1 step.2.2
    exact ih.trans (List.prefix_append _ _)

theorem relays_prefix_of_mem {p : Path} (hp : p ∈ g.pathsFrom limit s) : s.relays <+: p := by
  obtain ⟨u, last, hreach, -, rfl⟩ := mem_pathsFrom hp
  exact hreach.relays_prefix.trans (List.prefix_append _ _)

/-- Paths below one state come in the order of their relays: those below different successors part
at the relay that leads there. -/
theorem pairwise_pathsFrom (hs : g.Explored c₀ t₀ s) :
    (g.pathsFrom limit s).Pairwise fun p q => p.order < q.order := by
  induction s using search_induction g with
  | step s ih =>
    cases hlast : g.terminal? s.control s.target with
    | some last =>
      rw [pathsFrom_of_terminal hlast]
      exact List.pairwise_singleton _ _
    | none =>
      cases hl : exhausted limit s.relays with
      | true =>
        rw [pathsFrom_of_exhausted hlast hl]
        exact .nil
      | false =>
        rw [pathsFrom_of_open hlast hl, List.pairwise_flatMap]
        constructor
        · exact fun u hu => ih u hu (hs.step ⟨hlast, hl, hu⟩)
        · refine (pairwise_successors hs.ascending).imp ?_
          rintro a b ⟨r, r', ha, hb, hlt⟩ p hp q hq
          exact Path.order_lt_of_parting hlt (ha ▸ relays_prefix_of_mem hp)
            (hb ▸ relays_prefix_of_mem hq)

end Order

theorem length_lt_of_mem (h : c ≠ t) (hc : c < g.size) (ht : t < g.size) {p : Path}
    (hp : p ∈ g.pathsFrom limit (g.searchStart c t)) : p.length < g.size := by
  obtain ⟨u, last, hreach, -, rfl⟩ := mem_pathsFrom hp
  have hcount := (reaches_invariant (start_invariant h hc ht) hreach).count
  rw [List.length_append, List.length_singleton]
  omega

/-- The search lists exactly the simple paths, each once, in the order of their relays; a path has
at most as many relays as there are other qubits. Nothing is listed for equal qubits, nor for qubits
that the device does not have. -/
theorem enumerate_simple_paths (g : Graph) (limit : Option Nat) (c t : Qubit) :
    (∀ p, p ∈ g.enumerate limit c t ↔
      (c ≠ t ∧ c < g.size ∧ t < g.size) ∧ g.IsSimplePath limit c t p) ∧
    (g.enumerate limit c t).Nodup ∧
    (g.enumerate limit c t).Pairwise (fun p q => p.order < q.order) ∧
    (∀ p ∈ g.enumerate limit c t, p.length < g.size) ∧
    (c = t ∨ g.size ≤ c ∨ g.size ≤ t → g.enumerate limit c t = []) := by
  by_cases hon : c ≠ t ∧ c < g.size ∧ t < g.size
  · obtain ⟨h, hc, ht⟩ := hon
    have ordered : (g.pathsFrom limit (g.searchStart c t)).Pairwise fun p q => p.order < q.order :=
      pairwise_pathsFrom (explored_start h hc ht)
    rw [enumerate_eq g limit h hc ht]
    refine ⟨fun p => ?_, ?_, ordered, fun p hp => length_lt_of_mem h hc ht hp, ?_⟩
    · rw [mem_pathsFrom_start_iff h hc ht]
      exact (and_iff_right ⟨h, hc, ht⟩).symm
    · refine ordered.imp ?_
      rintro p q hlt rfl
      exact lt_irrefl _ hlt
    · rintro (heq | hout | hout)
      · exact absurd heq h
      · exact absurd hc (Nat.not_lt.2 hout)
      · exact absurd ht (Nat.not_lt.2 hout)
  · rw [enumerate_of_outside hon]
    refine ⟨fun p => ?_, .nil, .nil, by simp, fun _ => rfl⟩
    exact iff_of_false (by simp) fun hp => hon hp.1

/-- From the ends of a row of three qubits the control is carried first, then the target. -/
theorem enumerate_row :
    (row 3).enumerate none 0 2 = [[.cab 0 1, .nop 1 2], [.tba 2 1, .nop 0 1]] ∧
    (row 3).IsSimplePath none 0 2 [.tba 2 1, .nop 0 1] ∧ (row 3).enumerate none 1 1 = [] := by
  have listed : (row 3).enumerate none 0 2 = [[.cab 0 1, .nop 1 2], [.tba 2 1, .nop 0 1]] := by
    decide +kernel
  have found : [.tba 2 1, .nop 0 1] ∈ (row 3).enumerate none 0 2 := by simp [listed]
  refine ⟨listed, ?_, ?_⟩
  · exact (((enumerate_simple_paths (row 3) none 0 2).1 _).1 found).2
  · obtain ⟨-, -, -, -, hnone⟩ := enumerate_simple_paths (row 3) none 1 1
    exact hnone (Or.inl rfl)

end Graph

end QubitRouting
