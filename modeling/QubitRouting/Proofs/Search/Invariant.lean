import QubitRouting.Proofs.Search.Paths

/-!
What holds of every state that a search reaches: its places are two different qubits of the device
that can be entered no more, and its moves lead there from the start, each over a native edge to a
qubit that is not one of the places before it.
-/

namespace QubitRouting

def Carried.places (carried : Carried) (c t x : Qubit) : Qubit × Qubit :=
  match carried with
  | .control => (x, t)
  | .target => (c, x)

def Carried.relay (carried : Carried) (heading : Heading) (c t x : Qubit) : Relay :=
  match carried with
  | .control => ⟨.control, heading, false, c, x⟩
  | .target => ⟨.target, heading, false, t, x⟩

def Relay.Native (g : Graph) (r : Relay) : Prop := g.adjacent r.edge.1 r.edge.2 = true

namespace Graph

variable {g : Graph} {limit : Option Nat}

theorem mem_hops {c t x : Qubit} {hop : Move × Qubit × Qubit} :
    hop ∈ g.hops c t x ↔ ∃ (carried : Carried) (heading : Heading),
      Relay.Native g (carried.relay heading c t x) ∧
      hop = (.relay (carried.relay heading c t x), carried.places c t x) := by
  unfold hops
  constructor
  · intro h
    simp only [List.mem_append] at h
    rcases h with ((h | h) | h) | h <;> split at h
    · exact ⟨.control, .along, by assumption, List.mem_singleton.1 h⟩
    · cases h
    · exact ⟨.control, .against, by assumption, List.mem_singleton.1 h⟩
    · cases h
    · exact ⟨.target, .along, by assumption, List.mem_singleton.1 h⟩
    · cases h
    · exact ⟨.target, .against, by assumption, List.mem_singleton.1 h⟩
    · cases h
  · rintro ⟨carried, heading, h, rfl⟩
    cases carried <;> cases heading <;>
      simp_all [Relay.Native, Relay.edge, Carried.relay, Carried.places]

theorem terminal?_eq_some {c t : Qubit} {last : Move} (h : g.terminal? c t = some last) :
    (g.adjacent c t = true ∧ last = .nop c t) ∨ (g.adjacent t c = true ∧ last = .flip c t) := by
  unfold terminal? at h
  split at h
  · exact Or.inl ⟨by assumption, by simpa using h.symm⟩
  · split at h
    · exact Or.inr ⟨by assumption, by simpa using h.symm⟩
    · simp at h

theorem terminal?_eq_none {c t : Qubit} : g.terminal? c t = none ↔ g.coupled c t = false := by
  unfold terminal? coupled
  cases g.adjacent c t <;> cases g.adjacent t c <;> simp

theorem terminal?_eq_some_iff {c t : Qubit} {last : Move} : g.terminal? c t = some last ↔
    g.coupled c t = true ∧ last = if g.adjacent c t then .nop c t else .flip c t := by
  unfold terminal? coupled
  cases g.adjacent c t <;> cases g.adjacent t c <;> simp [eq_comm]

inductive Leads (g : Graph) (c₀ t₀ : Qubit) : List Move → Qubit → Qubit → Prop where
  | start : Leads g c₀ t₀ [] c₀ t₀
  | hop {relays c t x} {carried : Carried} {heading : Heading} :
      Leads g c₀ t₀ relays c t → x ≠ c → x ≠ t → Relay.Native g (carried.relay heading c t x) →
      Leads g c₀ t₀ (relays ++ [.relay (carried.relay heading c t x)])
        (carried.places c t x).1 (carried.places c t x).2

structure SearchInvariant (g : Graph) (c₀ t₀ : Qubit) (s : SearchState) : Prop where
  control_lt : s.control < g.size
  target_lt : s.target < g.size
  apart : s.control ≠ s.target
  unvisited_lt : ∀ q ∈ s.unvisited, q < g.size
  unvisited_nodup : s.unvisited.Nodup
  control_visited : s.control ∉ s.unvisited
  target_visited : s.target ∉ s.unvisited
  count : s.relays.length + s.unvisited.length + 2 = g.size
  leads : g.Leads c₀ t₀ s.relays s.control s.target

theorem mem_successors {s t : SearchState} :
    t ∈ s.successors g ↔ ∃ x ∈ s.unvisited, ∃ (carried : Carried) (heading : Heading),
      Relay.Native g (carried.relay heading s.control s.target x) ∧
      t = ⟨(carried.places s.control s.target x).1, (carried.places s.control s.target x).2,
        s.unvisited.erase x,
        s.relays ++ [.relay (carried.relay heading s.control s.target x)]⟩ := by
  simp only [SearchState.successors, List.mem_flatMap, List.mem_map]
  refine exists_congr fun x => and_congr_right fun _ => ?_
  constructor
  · rintro ⟨hop, hh, rfl⟩
    obtain ⟨carried, heading, he, rfl⟩ := mem_hops.1 hh
    exact ⟨carried, heading, he, rfl⟩
  · rintro ⟨carried, heading, he, rfl⟩
    exact ⟨_, mem_hops.2 ⟨carried, heading, he, rfl⟩, rfl⟩

theorem length_start {c t : Qubit} (h : c ≠ t) (hc : c < g.size) (ht : t < g.size) :
    (g.searchStart c t).unvisited.length + 2 = g.size := by
  have hnd : g.qubits.Nodup := List.nodup_range
  have hc' : c ∈ g.qubits := List.mem_range.2 hc
  have ht' : t ∈ g.qubits.erase c := (List.mem_erase_of_ne h.symm).2 (List.mem_range.2 ht)
  have he : (g.searchStart c t).unvisited = (g.qubits.erase c).erase t := by
    rw [(hnd.erase c).erase_eq_filter, hnd.erase_eq_filter, List.filter_filter]
    refine List.filter_congr fun q _ => ?_
    by_cases hqc : q = c <;> by_cases hqt : q = t <;> simp [hqc, hqt]
  have hlen : g.qubits.length = g.size := List.length_range
  have hpos := List.length_pos_of_mem hc'
  have hpos' := List.length_pos_of_mem ht'
  rw [List.length_erase_of_mem hc'] at hpos'
  rw [he, List.length_erase_of_mem ht', List.length_erase_of_mem hc']
  omega

theorem start_invariant {c t : Qubit} (h : c ≠ t) (hc : c < g.size) (ht : t < g.size) :
    g.SearchInvariant c t (g.searchStart c t) where
  control_lt := hc
  target_lt := ht
  apart := h
  unvisited_lt := by
    intro q hq
    simp only [searchStart, qubits, List.mem_filter, List.mem_range] at hq
    exact hq.1
  unvisited_nodup := List.nodup_range.filter _
  control_visited := by simp [searchStart]
  target_visited := by simp [searchStart]
  count := by
    have := length_start h hc ht
    simp only [searchStart, List.length_nil] at this ⊢
    omega
  leads := .start

theorem step_preserves_invariant {c₀ t₀ : Qubit} {s t : SearchState}
    (hs : g.SearchInvariant c₀ t₀ s) (h : t ∈ s.successors g) : g.SearchInvariant c₀ t₀ t := by
  obtain ⟨x, hx, carried, heading, he, rfl⟩ := mem_successors.1 h
  have hxc : x ≠ s.control := fun e => hs.control_visited (e ▸ hx)
  have hxt : x ≠ s.target := fun e => hs.target_visited (e ▸ hx)
  have hxl := hs.unvisited_lt x hx
  have hlen := List.length_erase_of_mem hx
  have hpos := List.length_pos_of_mem hx
  have hcount := hs.count
  refine ⟨?_, ?_, ?_, ?_, ?_, ?_, ?_, ?_, ?_⟩
  · cases carried
    exacts [hxl, hs.control_lt]
  · cases carried
    exacts [hs.target_lt, hxl]
  · cases carried
    exacts [hxt, hxc.symm]
  · exact fun q hq => hs.unvisited_lt q (List.mem_of_mem_erase hq)
  · exact hs.unvisited_nodup.erase x
  · cases carried
    · exact hs.unvisited_nodup.not_mem_erase
    · exact fun hq => hs.control_visited (List.mem_of_mem_erase hq)
  · cases carried
    · exact fun hq => hs.target_visited (List.mem_of_mem_erase hq)
    · exact hs.unvisited_nodup.not_mem_erase
  · simp only [List.length_append, List.length_singleton]
    omega
  · exact hs.leads.hop hxc hxt he

theorem reaches_invariant {c₀ t₀ : Qubit} {s t : SearchState} (hs : g.SearchInvariant c₀ t₀ s)
    (h : g.Reaches limit s t) : g.SearchInvariant c₀ t₀ t := by
  induction h with
  | refl => exact hs
  | tail _ h ih => exact step_preserves_invariant ih h.2.2

end Graph

end QubitRouting
