import Mathlib.Combinatorics.SimpleGraph.Metric
import Mathlib.SetTheory.Cardinal.Finite
import QubitRouting.Device.Distance

/-!
Edges of either direction as an undirected graph. The queue of a breadth-first search holds the
distances from the start in ascending order, none more than one above another, so the search finds
the length of a shortest walk, or nothing where there is no walk.
-/

namespace QubitRouting.Graph

variable {g : Graph}

theorem coupled_comm (g : Graph) (a b : Qubit) : g.coupled a b = g.coupled b a :=
  Bool.or_comm _ _

theorem lt_of_coupled {a b : Qubit} (h : g.coupled a b = true) : a < g.size ∧ b < g.size := by
  rcases Bool.or_eq_true_iff.1 h with h | h
  · exact lt_of_adjacent h
  · exact (lt_of_adjacent h).symm

def coupling (g : Graph) : SimpleGraph Nat where
  Adj a b := g.coupled a b = true
  symm := ⟨fun a b h => by rwa [coupled_comm]⟩
  loopless := ⟨fun q h => by simp [coupled, adjacent_self] at h⟩

theorem coupling_adj {a b : Qubit} : g.coupling.Adj a b ↔ g.coupled a b = true := Iff.rfl

theorem two_le_edist_iff {a b : Qubit} {d : Nat} (h : a ≠ b) (hd : g.coupling.edist a b = d) :
    2 ≤ d ↔ g.coupled a b = false := by
  have hzero : d ≠ 0 := by
    rintro rfl
    rw [Nat.cast_zero, SimpleGraph.edist_eq_zero_iff] at hd
    exact h hd
  have hone : d = 1 ↔ g.coupled a b = true := by
    rw [← coupling_adj, ← SimpleGraph.edist_eq_one_iff_adj, hd]
    exact Nat.cast_eq_one.symm
  rw [← Bool.not_eq_true, ← hone]
  omega

theorem exists_adj_of_edist_eq {a q : Qubit} {k : Nat}
    (h : g.coupling.edist a q = (k + 1 : Nat)) :
    ∃ p, g.coupling.edist a p = k ∧ g.coupling.Adj p q := by
  obtain ⟨w, hw⟩ := SimpleGraph.exists_walk_of_edist_eq_coe h
  have hnil : ¬ w.Nil := by
    rw [← SimpleGraph.Walk.length_eq_zero_iff]
    omega
  have hadj := w.adj_penultimate hnil
  refine ⟨w.penultimate, le_antisymm ?_ ?_, hadj⟩
  · have hle := SimpleGraph.edist_le w.dropLast
    rw [SimpleGraph.Walk.length_dropLast, hw] at hle
    exact hle
  · have htri := SimpleGraph.edist_triangle (G := g.coupling) (u := a) (v := w.penultimate) (w := q)
    rw [SimpleGraph.edist_eq_one_iff_adj.2 hadj, h] at htri
    rw [Nat.cast_add, Nat.cast_one] at htri
    exact (ENat.add_le_add_iff_right ENat.one_ne_top).1 htri

/-- What holds between two rounds of the search from `a`: the queue holds qubits with their
distances, in ascending order and none of them more than one above another, and a qubit that was
left has no unseen neighbour. -/
structure Searched (g : Graph) (a : Qubit) (queue : List (Qubit × Nat)) (unseen : List Qubit) :
    Prop where
  exact : ∀ x ∈ queue, g.coupling.edist a x.1 = x.2
  ascending : queue.Pairwise fun x y => x.2 ≤ y.2
  band : ∀ x ∈ queue, ∀ y ∈ queue, x.2 ≤ y.2 + 1
  start : a ∉ unseen
  left : ∀ p, p ∉ unseen → (∀ x ∈ queue, x.1 ≠ p) → ∀ q, g.coupling.Adj p q → q ∉ unseen

namespace Searched

variable {a q u goal : Qubit} {d : Nat} {queue : List (Qubit × Nat)} {unseen : List Qubit}

theorem initial {a : Qubit} : g.Searched a [(a, 0)] (g.qubits.filter (· ≠ a)) where
  exact := by
    refine List.forall_mem_singleton.2 ?_
    rw [Nat.cast_zero, SimpleGraph.edist_eq_zero_iff]
  ascending := List.pairwise_singleton _ _
  band := by simp
  start := by simp
  left := by
    intro p hp hqueue q hadj
    have hpa : p ≠ a := (hqueue (a, 0) List.mem_cons_self).symm
    have hin : p ∈ g.qubits := List.mem_range.2 (lt_of_coupled hadj).1
    exact absurd (List.mem_filter.2 ⟨hin, by simpa using hpa⟩) hp

/-- On the way to an unseen qubit a queued one is met, which is nearer. -/
theorem exists_nearer (h : g.Searched a queue unseen) {k : Nat} (hu : u ∈ unseen)
    (hk : g.coupling.edist a u = k) : ∃ x ∈ queue, x.2 < k := by
  induction k generalizing u with
  | zero =>
    rw [Nat.cast_zero, SimpleGraph.edist_eq_zero_iff] at hk
    exact absurd (hk ▸ hu) h.start
  | succ k ih =>
    obtain ⟨p, hp, hadj⟩ := exists_adj_of_edist_eq hk
    by_cases hseen : p ∈ unseen
    · obtain ⟨x, hx, hlt⟩ := ih hseen hp
      exact ⟨x, hx, hlt.trans (Nat.lt_succ_self k)⟩
    · by_cases hqueued : ∃ x ∈ queue, x.1 = p
      · obtain ⟨x, hx, rfl⟩ := hqueued
        have : x.2 = k := Nat.cast_inj.1 ((h.exact x hx).symm.trans hp)
        exact ⟨x, hx, by omega⟩
      · simp only [not_exists, not_and] at hqueued
        exact absurd hu (h.left p hseen hqueued u hadj)

theorem edist_of_mem_neighbours (h : g.Searched a ((q, d) :: queue) unseen)
    (hu : u ∈ g.neighbours q unseen) : g.coupling.edist a u = (d + 1 : Nat) := by
  obtain ⟨hunseen, hadj⟩ := List.mem_filter.1 hu
  have hle : g.coupling.edist a u ≤ (d + 1 : Nat) := by
    have htri := SimpleGraph.edist_triangle (G := g.coupling) (u := a) (v := q) (w := u)
    rw [SimpleGraph.edist_eq_one_iff_adj.2 (coupling_adj.2 hadj),
      h.exact _ List.mem_cons_self] at htri
    exact htri
  obtain ⟨k, hk⟩ := ENat.ne_top_iff_exists.1 (ne_top_of_le_ne_top (ENat.natCast_ne_top _) hle)
  rw [← hk, Nat.cast_le] at hle
  obtain ⟨x, hx, hlt⟩ := h.exists_nearer hunseen hk.symm
  have hhead : d ≤ x.2 := by
    rcases List.mem_cons.1 hx with rfl | hx
    · exact Nat.le_refl _
    · exact List.rel_of_pairwise_cons h.ascending hx
  rw [← hk, Nat.cast_inj]
  omega

theorem step (h : g.Searched a ((q, d) :: queue) unseen) :
    g.Searched a (queue ++ (g.neighbours q unseen).map (·, d + 1)) (g.others q unseen) where
  exact := by
    refine List.forall_mem_append.2 ⟨fun x hx => h.exact x (List.mem_cons_of_mem _ hx), ?_⟩
    exact List.forall_mem_map.2 fun u hu => h.edist_of_mem_neighbours hu
  ascending := by
    refine List.pairwise_append.2 ⟨h.ascending.tail, ?_, ?_⟩
    · exact List.pairwise_map.2 (List.pairwise_of_forall fun _ _ => Nat.le_refl _)
    · intro x hx y hy
      obtain ⟨u, -, rfl⟩ := List.mem_map.1 hy
      exact h.band x (List.mem_cons_of_mem _ hx) _ List.mem_cons_self
  band := by
    have hall : ∀ x ∈ queue ++ (g.neighbours q unseen).map (·, d + 1), d ≤ x.2 ∧ x.2 ≤ d + 1 := by
      refine List.forall_mem_append.2 ⟨fun x hx => ⟨?_, ?_⟩, List.forall_mem_map.2 fun u _ => ?_⟩
      · exact List.rel_of_pairwise_cons h.ascending hx
      · exact h.band x (List.mem_cons_of_mem _ hx) _ List.mem_cons_self
      · exact ⟨Nat.le_succ d, Nat.le_refl _⟩
    intro x hx y hy
    have := hall x hx
    have := hall y hy
    omega
  start hmem := h.start (List.mem_of_mem_filter hmem)
  left := by
    intro p hp hqueue u hadj hu
    obtain ⟨hunseen, hapart⟩ := List.mem_filter.1 hu
    have hpq : p ≠ q := by
      rintro rfl
      rw [coupling_adj.1 hadj] at hapart
      cases hapart
    by_cases hseen : p ∈ unseen
    · have hfound : p ∈ g.neighbours q unseen := by
        refine List.mem_filter.2 ⟨hseen, ?_⟩
        by_contra hno
        exact hp (List.mem_filter.2 ⟨hseen, by simpa using hno⟩)
      exact hqueue _ (List.mem_append_right _ (List.mem_map_of_mem hfound)) rfl
    · refine h.left p hseen ?_ u hadj hunseen
      refine List.forall_mem_cons.2 ⟨hpq.symm, fun x hx => ?_⟩
      exact hqueue x (List.mem_append_left _ hx)

/-- From any point of the search on, the goal is met at its distance from the start, if at all. -/
theorem search_eq_some_iff (h : g.Searched a queue unseen) (hgoal : goal ∈ unseen) {k : Nat} :
    g.search goal queue unseen = some k ↔ g.coupling.edist a goal = k := by
  induction queue, unseen using search.induct g goal with
  | case1 unseen =>
    rw [search]
    refine iff_of_false nofun fun hk => ?_
    obtain ⟨x, hx, -⟩ := h.exists_nearer hgoal hk
    cases hx
  | case2 q d queue unseen hfound =>
    rw [search, if_pos hfound, h.edist_of_mem_neighbours hfound, Option.some_inj, Nat.cast_inj]
  | case3 q d queue unseen hfound ih =>
    have hother : goal ∈ g.others q unseen := by
      refine List.mem_filter.2 ⟨hgoal, ?_⟩
      by_contra hno
      exact hfound (List.mem_filter.2 ⟨hgoal, by simpa using hno⟩)
    rw [search, if_neg hfound]
    exact ih h.step hother

end Searched

theorem distance?_eq_some_iff {a b : Qubit} {d : Nat} :
    g.distance? a b = some d ↔ a < g.size ∧ b < g.size ∧ g.coupling.edist a b = d := by
  rw [distance?]
  split_ifs with hin hab
  · obtain rfl := hab
    rw [SimpleGraph.edist_self, Option.some_inj, eq_comm (b := (d : ℕ∞)), Nat.cast_eq_zero,
      eq_comm (b := d)]
    exact ⟨fun hd => ⟨hin.1, hin.2, hd⟩, fun hd => hd.2.2⟩
  · have hgoal : b ∈ g.qubits.filter (· ≠ a) :=
      List.mem_filter.2 ⟨List.mem_range.2 hin.2, by simpa using Ne.symm hab⟩
    rw [Searched.initial.search_eq_some_iff hgoal]
    exact ⟨fun hd => ⟨hin.1, hin.2, hd⟩, fun hd => hd.2.2⟩
  · exact iff_of_false nofun fun hd => hin ⟨hd.1, hd.2.1⟩

theorem isSome_distance?_iff {a b : Qubit} :
    (g.distance? a b).isSome ↔ a < g.size ∧ b < g.size ∧ g.coupling.Reachable a b := by
  rw [Option.isSome_iff_exists, ← SimpleGraph.edist_ne_top_iff_reachable, ENat.ne_top_iff_exists]
  simp only [distance?_eq_some_iff, exists_and_left, eq_comm (b := g.coupling.edist a b)]

theorem isConnected_iff :
    g.isConnected = true ↔
      ∀ a b, a < g.size → b < g.size → g.coupling.Reachable a b := by
  rw [isConnected, List.all_eq_true]
  simp only [qubits, List.mem_range, isSome_distance?_iff]
  constructor
  · intro h a b ha hb
    exact (h a ha).2.2.symm.trans (h b hb).2.2
  · intro h q hq
    have hpos : 0 < g.size := Nat.zero_lt_of_lt hq
    exact ⟨hpos, hq, h 0 q hpos hq⟩

theorem lt_of_reachable {a b : Qubit} (h : g.coupling.Reachable a b) (ha : a < g.size) :
    b < g.size := by
  obtain ⟨w⟩ := h
  induction w with
  | nil => exact ha
  | cons hadj _ ih => exact ih (lt_of_coupled hadj).2

section Components

def network (g : Graph) : SimpleGraph (Fin g.size) := g.coupling.comap Fin.val

theorem network_reachable_iff {a b : Fin g.size} :
    g.network.Reachable a b ↔ g.coupling.Reachable a b := by
  constructor
  · intro h
    exact h.map ⟨Fin.val, fun hadj => hadj⟩
  · obtain ⟨a, ha⟩ := a
    obtain ⟨b, hb⟩ := b
    rintro ⟨w : g.coupling.Walk a b⟩
    induction w with
    | nil => exact .refl _
    | @cons a x b hadj w ih =>
      have hx := (lt_of_coupled hadj).2
      have hstep : g.network.Adj ⟨a, ha⟩ ⟨x, hx⟩ := hadj
      exact hstep.reachable.trans (ih hx hb)

noncomputable def components (g : Graph) : Nat := Nat.card g.network.ConnectedComponent

theorem isConnected_iff_components : g.isConnected = true ↔ g.size ≤ 1 ∨ g.components = 1 := by
  rw [isConnected_iff, components, Nat.card_eq_one_iff_unique]
  constructor
  · intro h
    rcases Nat.lt_or_ge 1 g.size with hsize | hsize
    · have hpre : g.network.Preconnected :=
        fun a b => network_reachable_iff.2 (h a b a.isLt b.isLt)
      exact Or.inr ⟨hpre.subsingleton_connectedComponent,
        ⟨g.network.connectedComponentMk ⟨0, by omega⟩⟩⟩
    · exact Or.inl hsize
  · rintro (hsize | ⟨hone, -⟩) a b ha hb
    · obtain rfl : a = b := by omega
      exact .refl _
    · have hsame := hone.elim (g.network.connectedComponentMk ⟨a, ha⟩)
        (g.network.connectedComponentMk ⟨b, hb⟩)
      exact network_reachable_iff.1 (SimpleGraph.ConnectedComponent.exact hsame)

end Components

def row (n : Nat) : Graph := tabulate n fun c t => t = c + 1

end QubitRouting.Graph
