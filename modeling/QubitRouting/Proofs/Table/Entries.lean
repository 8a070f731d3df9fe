import QubitRouting.Proofs.Outcome
import QubitRouting.Proofs.Search.Width
import QubitRouting.Table.Basic

/-!
What a table holds. Its entries are those of the ordered pairs, each settled by the search for its
pair alone, and the first pair without one decides why there is no table.
-/

namespace QubitRouting

namespace Graph

variable {n : Nat} {v w : Qubit}

theorem mem_orderedPairs : (v, w) ∈ orderedPairs n ↔ v < n ∧ w < n ∧ v ≠ w := by
  simp only [orderedPairs, List.mem_flatMap, List.mem_map, List.mem_filter, List.mem_range,
    Prod.mk.injEq, decide_eq_true_eq]
  constructor
  · rintro ⟨a, ha, b, ⟨hb, hba⟩, rfl, rfl⟩
    exact ⟨ha, hb, hba.symm⟩
  · rintro ⟨hv, hw, hvw⟩
    exact ⟨v, hv, w, ⟨hw, hvw.symm⟩, rfl, rfl⟩

theorem length_orderedPairs (n : Nat) : (orderedPairs n).length = n * (n - 1) := by
  have hrow : ∀ v ∈ List.range n, (((List.range n).filter (· ≠ v)).map (v, ·)).length = n - 1 := by
    intro v hv
    have herase := List.length_erase_of_mem hv
    rw [List.nodup_range.erase_eq_filter, List.length_range] at herase
    rw [List.length_map, ← herase]
    exact congrArg List.length (List.filter_congr fun w _ => by simp [bne, Bool.beq_eq_decide_eq])
  rw [orderedPairs, List.length_flatMap, List.sum_eq_card_nsmul _ (n - 1)
    (List.forall_mem_map.2 hrow), List.length_map, List.length_range, nsmul_eq_mul, Nat.cast_id]

def Before (p q : Qubit × Qubit) : Prop := p.1 < q.1 ∨ (p.1 = q.1 ∧ p.2 < q.2)

theorem pairwise_orderedPairs (n : Nat) : (orderedPairs n).Pairwise Before := by
  rw [orderedPairs, List.pairwise_flatMap]
  constructor
  · intro v _
    rw [List.pairwise_map]
    exact (List.pairwise_lt_range.filter _).imp fun h => Or.inr ⟨rfl, h⟩
  · refine List.pairwise_lt_range.imp ?_
    intro a b hab p hp q hq
    obtain ⟨_, _, rfl⟩ := List.mem_map.1 hp
    obtain ⟨_, _, rfl⟩ := List.mem_map.1 hq
    exact Or.inl hab

theorem not_before_symm {p q : Qubit × Qubit} (h : Before p q) : ¬ Before q p := by
  rcases h with h | ⟨h, h'⟩
  · rintro (k | ⟨k, -⟩)
    · exact Nat.lt_asymm h k
    · exact Nat.ne_of_lt h k.symm
  · rintro (k | ⟨-, k'⟩)
    · exact Nat.ne_of_lt k h.symm
    · exact Nat.lt_asymm h' k'

theorem mem_of_split {p : Qubit × Qubit} {before after : List (Qubit × Qubit)}
    (h : orderedPairs n = before ++ p :: after) {q : Qubit × Qubit} :
    q ∈ before ↔ q ∈ orderedPairs n ∧ Before q p := by
  have hpair := pairwise_orderedPairs n
  rw [h, List.pairwise_append, List.pairwise_cons] at hpair
  obtain ⟨-, ⟨hafter, -⟩, hcross⟩ := hpair
  constructor
  · intro hq
    exact ⟨h ▸ List.mem_append_left _ hq, hcross q hq p List.mem_cons_self⟩
  · rintro ⟨hq, hqp⟩
    rw [h, List.mem_append, List.mem_cons] at hq
    rcases hq with hq | rfl | hq
    · exact hq
    · exact absurd hqp (not_before_symm hqp)
    · exact absurd hqp (not_before_symm (hafter q hq))

end Graph

namespace RoutingTable

section Pairs

variable {α : Type} {f : Qubit → Qubit → Except RoutingError α} {pairs : List (Qubit × Qubit)}

theorem forPairs_ok (h : ∀ p ∈ pairs, ∃ a, f p.1 p.2 = .ok a) :
    ∃ es, forPairs f pairs = .ok es := by
  induction pairs with
  | nil => exact ⟨_, rfl⟩
  | cons p rest ih =>
    obtain ⟨⟨a, ha⟩, hrest⟩ := List.forall_mem_cons.1 h
    obtain ⟨es, hes⟩ := ih hrest
    refine ⟨⟨(p, a) :: es.1, by simp [es.2]⟩, ?_⟩
    rw [forPairs, ha, hes]
    rfl

theorem forPairs_error {e : RoutingError} {p : Qubit × Qubit}
    {before after : List (Qubit × Qubit)} (hp : pairs = before ++ p :: after)
    (h : ∀ q ∈ before, ∃ a, f q.1 q.2 = .ok a) (he : f p.1 p.2 = .error e) :
    forPairs f pairs = .error e := by
  subst hp
  induction before with
  | nil => rw [List.nil_append, forPairs, he, error_bind]
  | cons q before ih =>
    obtain ⟨⟨a, ha⟩, hrest⟩ := List.forall_mem_cons.1 h
    rw [List.cons_append, forPairs, ha, ok_bind, ih hrest, error_bind]

theorem exists_of_forPairs_error {e : RoutingError} (h : forPairs f pairs = .error e) :
    ∃ p ∈ pairs, f p.1 p.2 = .error e := by
  induction pairs with
  | nil => cases h
  | cons p rest ih =>
    rw [forPairs, bind_eq_error_iff] at h
    rcases h with ha | ⟨a, -, h⟩
    · exact ⟨p, List.mem_cons_self, ha⟩
    · rcases bind_eq_error_iff.1 h with hrest | ⟨es, -, h⟩
      · obtain ⟨q, hq, he⟩ := ih hrest
        exact ⟨q, List.mem_cons_of_mem p hq, he⟩
      · cases h

theorem of_mem_forPairs {es : { es : List ((Qubit × Qubit) × α) // es.map Prod.fst = pairs }}
    (h : forPairs f pairs = .ok es) : ∀ x ∈ es.1, f x.1.1 x.1.2 = .ok x.2 := by
  induction pairs with
  | nil =>
    obtain ⟨es, hes⟩ := es
    obtain rfl := List.map_eq_nil_iff.1 hes
    exact fun x hx => by cases hx
  | cons p rest ih =>
    rw [forPairs] at h
    obtain ⟨a, ha, h⟩ := bind_eq_ok_iff.1 h
    obtain ⟨rs, hr, h⟩ := bind_eq_ok_iff.1 h
    obtain rfl := Except.ok.inj h
    exact List.forall_mem_cons.2 ⟨ha, ih hr⟩

end Pairs

variable {g : Graph} {limit : Option Nat} {t : RoutingTable} {v w : Qubit}

theorem isSome_get?_iff : (t.get? v w).isSome ↔ v < t.size ∧ w < t.size ∧ v ≠ w := by
  rw [get?, List.lookup_isSome_iff, ← Graph.mem_orderedPairs, size, ← t.covers]
  simp

theorem mem_of_get? {e : RoutingEntry} (h : t.get? v w = some e) : ((v, w), e) ∈ t.entries := by
  obtain ⟨before, after, heq, -⟩ := List.lookup_eq_some_iff.1 h
  rw [heq]
  exact List.mem_append_right _ List.mem_cons_self

theorem nodup_pairs (t : RoutingTable) : (t.entries.map Prod.fst).Nodup := by
  rw [t.covers]
  refine (Graph.pairwise_orderedPairs t.graph.size).imp ?_
  rintro p _ hpp rfl
  exact Graph.not_before_symm hpp hpp

theorem get?_of_mem {x : (Qubit × Qubit) × RoutingEntry} (hx : x ∈ t.entries) :
    t.get? x.1.1 x.1.2 = some x.2 := by
  obtain ⟨before, after, hsplit⟩ := List.append_of_mem hx
  have hnodup := t.nodup_pairs
  rw [hsplit, List.map_append, List.map_cons, List.nodup_append] at hnodup
  refine List.lookup_eq_some_iff.2 ⟨before, after, hsplit, fun y hy => ?_⟩
  have := hnodup.2.2 y.1 (List.mem_map_of_mem hy) x.1 List.mem_cons_self
  exact bne_iff_ne.2 this.symm

theorem forPairs_of_build (h : build g limit = .ok t) : t.graph = g ∧
    ∃ es, forPairs (entryOf g limit) (Graph.orderedPairs g.size) = .ok es ∧ t.entries = es.1 := by
  rw [build] at h
  obtain ⟨es, hes, h⟩ := bind_eq_ok_iff.1 h
  obtain rfl := Except.ok.inj h
  exact ⟨rfl, es, hes, rfl⟩

theorem build_graph (h : build g limit = .ok t) : t.graph = g := (forPairs_of_build h).1

theorem entryOf_of_get? {e : RoutingEntry} (h : build g limit = .ok t)
    (he : t.get? v w = some e) : entryOf g limit v w = .ok e := by
  obtain ⟨-, es, hes, hentries⟩ := forPairs_of_build h
  have hmem := mem_of_get? he
  rw [hentries] at hmem
  exact of_mem_forPairs hes _ hmem

theorem exists_entry (h : build g limit = .ok t) (hv : v < g.size) (hw : w < g.size)
    (hvw : v ≠ w) : ∃ e, t.get? v w = some e ∧ entryOf g limit v w = .ok e := by
  have hsome : (t.get? v w).isSome := by
    rw [isSome_get?_iff, size, build_graph h]
    exact ⟨hv, hw, hvw⟩
  obtain ⟨e, he⟩ := Option.isSome_iff_exists.1 hsome
  exact ⟨e, he, entryOf_of_get? h he⟩

theorem build_ok (h : ∀ p ∈ Graph.orderedPairs g.size, ∃ e, entryOf g limit p.1 p.2 = .ok e) :
    ∃ t, build g limit = .ok t := by
  obtain ⟨es, hes⟩ := forPairs_ok h
  rw [build, hes]
  exact ⟨_, rfl⟩

theorem build_error {e : RoutingError} {p : Qubit × Qubit} {before after : List (Qubit × Qubit)}
    (hp : Graph.orderedPairs g.size = before ++ p :: after)
    (h : ∀ q ∈ before, ∃ e, entryOf g limit q.1 q.2 = .ok e)
    (he : entryOf g limit p.1 p.2 = .error e) : build g limit = .error e := by
  rw [build, forPairs_error hp h he]
  rfl

theorem exists_of_build_error {e : RoutingError} (h : build g limit = .error e) :
    ∃ p ∈ Graph.orderedPairs g.size, entryOf g limit p.1 p.2 = .error e := by
  rw [build] at h
  rcases bind_eq_error_iff.1 h with herror | ⟨es, -, h⟩
  · exact exists_of_forPairs_error herror
  · cases h

theorem entryOf_of_cheapest {cost : Nat} {p : Path} (hn : g.adjacent v w = false)
    (h : g.cheapest limit v w = .ok (cost, p)) : entryOf g limit v w = .ok ⟨cost, p.complete⟩ := by
  rw [entryOf, if_neg (by simp [hn]), h]
  rfl

theorem entryOf_of_error {e : RoutingError} (hn : g.adjacent v w = false)
    (h : g.cheapest limit v w = .error e) : entryOf g limit v w = .error e := by
  rw [entryOf, if_neg (by simp [hn]), h]
  rfl

theorem cost_lt_of_entryOf {e : RoutingEntry} (h : entryOf g limit v w = .ok e) :
    e.cost < wordBound := by
  cases hn : g.adjacent v w with
  | true =>
    rw [entryOf, if_pos hn] at h
    obtain rfl := Except.ok.inj h
    exact Nat.two_pow_pos 32
  | false =>
    rw [entryOf, if_neg (by simp [hn])] at h
    obtain ⟨choice, hcheapest, h⟩ := bind_eq_ok_iff.1 h
    obtain rfl := Except.ok.inj h
    exact Graph.cost_lt_of_cheapest hcheapest

theorem exists_build_row : ∃ t, build (Graph.row 3) none = .ok t :=
  isOk_iff.1 (by decide +kernel)

theorem exists_build_long_row : ∃ t, build (Graph.row 4) none = .ok t :=
  isOk_iff.1 (by decide +kernel)

end RoutingTable

end QubitRouting
