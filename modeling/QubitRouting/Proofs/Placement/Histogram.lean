import Mathlib.Algebra.BigOperators.Group.Finset.Basic
import Mathlib.Algebra.BigOperators.Group.Finset.Sigma
import QubitRouting.Placement.Histogram
import QubitRouting.Proofs.Relay.Native
import QubitRouting.Proofs.Routing.Price

/-!
Interaction counts as sums over the gates of a circuit. The interactions of a histogram are the
pairs of its one-control NOTs, each once with its count, so a sum over them is a sum over these
gates.
-/

namespace QubitRouting

section Sums

variable {α β : Type}

theorem foldl_saturating (f : α → Nat) (l : List α) {limit start : Nat} (h : start ≤ limit) :
    l.foldl (fun sum x => min limit (sum + f x)) start = min limit (start + (l.map f).sum) := by
  induction l generalizing start with
  | nil => simpa using h
  | cons x l ih =>
    rw [List.foldl_cons, ih (Nat.min_le_left _ _), List.map_cons, List.sum_cons]
    omega

theorem sum_filterMap (f : β → Nat) (k : α → Option β) (l : List α) :
    ((l.filterMap k).map f).sum = (l.map fun x => (k x).elim 0 f).sum := by
  induction l with
  | nil => rfl
  | cons x l ih =>
    rw [List.map_cons, List.sum_cons, ← ih]
    cases hk : k x with
    | none => rw [List.filterMap_cons_none hk, Option.elim_none, Nat.zero_add]
    | some y => rw [List.filterMap_cons_some hk, List.map_cons, List.sum_cons, Option.elim_some]

theorem sum_toNat (k : Nat) (test : α → Bool) (l : List α) :
    (l.map fun x => k * (test x).toNat).sum = k * l.countP test := by
  induction l with
  | nil => rfl
  | cons x l ih =>
    rw [List.map_cons, List.sum_cons, ih, List.countP_cons]
    cases test x with
    | false => simp
    | true => rw [Bool.toNat_true, if_pos rfl, Nat.mul_add, Nat.add_comm]

end Sums

namespace Histogram

variable {h : Histogram} {control target n : Nat}

def Inside (h : Histogram) : Prop := ∀ pair ∈ h.pairs, pair.1 < h.lines ∧ pair.2 < h.lines

theorem mem_interactions (inside : h.Inside) : (control, target, n) ∈ h.interactions ↔
    (control, target) ∈ h.pairs ∧ n = h.count control target := by
  have hcount : 0 < h.count control target ↔ (control, target) ∈ h.pairs := List.count_pos_iff
  simp only [interactions, List.mem_flatMap, List.mem_filter, List.mem_map, List.mem_range,
    Prod.mk.injEq, decide_eq_true_eq]
  constructor
  · rintro ⟨c, -, ⟨t, -, rfl, rfl, rfl⟩, hpos⟩
    exact ⟨hcount.1 hpos, rfl⟩
  · rintro ⟨hmem, rfl⟩
    obtain ⟨hc, ht⟩ := inside _ hmem
    refine ⟨control, ?_, ⟨target, ht, rfl, rfl, rfl⟩, hcount.2 hmem⟩
    rw [controls, List.mem_filter, List.mem_range, List.any_eq_true]
    exact ⟨hc, _, hmem, beq_self_eq_true control⟩

theorem nodup_interactions (h : Histogram) : h.interactions.Nodup := by
  rw [interactions, List.nodup_flatMap]
  constructor
  · intro c _
    refine List.Nodup.filter _ (List.Nodup.map ?_ List.nodup_range)
    intro a b hab
    exact congrArg (fun i => i.2.1) hab
  · refine (List.nodup_range.filter _).imp ?_
    intro a b hab x ha hb
    obtain ⟨_, -, rfl⟩ := List.mem_map.1 (List.mem_filter.1 ha).1
    obtain ⟨_, -, heq⟩ := List.mem_map.1 (List.mem_filter.1 hb).1
    exact hab (congrArg Prod.fst heq).symm

theorem sum_map_pairs (h : Histogram) (f : Qubit × Qubit → Nat) :
    (h.pairs.map f).sum = ∑ p ∈ h.pairs.toFinset, h.count p.1 p.2 * f p := by
  rw [Finset.sum_list_map_count]
  refine Finset.sum_congr rfl fun p _ => ?_
  change _ = h.pairs.count p * f p
  rw [smul_eq_mul]
  -- The two sides count with two tests for equal pairs, one for each part and one for the whole.
  congr
  exact lawful_beq_subsingleton _ _

/-- Each pair with its count stands for the gates that were counted there. -/
theorem sum_interactions (inside : h.Inside) (f : Qubit × Qubit → Nat) :
    (h.interactions.map fun i => i.2.2 * f (i.1, i.2.1)).sum = (h.pairs.map f).sum := by
  let entry : Qubit × Qubit → Qubit × Qubit × Nat := fun p => (p.1, p.2, h.count p.1 p.2)
  have himage : h.interactions.toFinset = h.pairs.toFinset.image entry := by
    ext ⟨c, t, n⟩
    rw [List.mem_toFinset, mem_interactions inside, Finset.mem_image]
    constructor
    · rintro ⟨hmem, rfl⟩
      exact ⟨(c, t), List.mem_toFinset.2 hmem, rfl⟩
    · rintro ⟨⟨c', t'⟩, hmem, heq⟩
      obtain ⟨rfl, rfl, rfl⟩ : c' = c ∧ t' = t ∧ h.count c' t' = n := by simpa [entry] using heq
      exact ⟨List.mem_toFinset.1 hmem, rfl⟩
  have hinjective : Set.InjOn entry h.pairs.toFinset := by
    intro p _ p' _ heq
    have hfst : p.1 = p'.1 := congrArg (fun i => i.1) heq
    have hsnd : p.2 = p'.2 := congrArg (fun i => i.2.1) heq
    exact Prod.ext hfst hsnd
  rw [← List.sum_toFinset _ h.nodup_interactions, himage, Finset.sum_image hinjective,
    sum_map_pairs]

theorem sum_rows {n : Nat} (inside : ∀ p ∈ h.pairs, p.1 < n ∧ p.2 < n) (f : Qubit → Qubit → Nat) :
    (h.pairs.map fun p => f p.1 p.2).sum =
      ∑ c ∈ Finset.range n, ∑ t ∈ Finset.range n, h.count c t * f c t := by
  have hsub : h.pairs.toFinset ⊆ Finset.range n ×ˢ Finset.range n := by
    intro p hp
    rw [Finset.mem_product, Finset.mem_range, Finset.mem_range]
    exact inside p (List.mem_toFinset.1 hp)
  rw [sum_map_pairs, ← Finset.sum_product' _ _ fun c t => h.count c t * f c t]
  refine Finset.sum_subset hsub fun p _ hno => ?_
  rw [count, List.count_eq_zero.2 (mt List.mem_toFinset.2 hno), Nat.zero_mul]

end Histogram

namespace Gate

variable {g : Gate}

def pair? (g : Gate) : Option (Qubit × Qubit) :=
  g.cnot?.map fun (control, target) => (control.line, target)

theorem pair?_of_isCnot {lines : Nat} (hfit : g.Fits lines) (h : g.isCnot = true) :
    ∃ pair, g.pair? = some pair ∧ Histogram.interaction? lines g = some pair := by
  obtain ⟨hnot, hone⟩ := isCnot_iff.1 h
  obtain ⟨control, hc⟩ := List.length_eq_one_iff.1 hone
  obtain ⟨target, rest, ht⟩ := List.exists_cons_of_ne_nil hfit.targets_ne
  obtain ⟨hline, htarget, -⟩ := hfit.pair hc ht
  refine ⟨(control.line, target), ?_, ?_⟩
  · rw [pair?, cnot?_eq_some_iff.2 ⟨hnot, hc, rest, ht⟩]
    rfl
  · simp [Histogram.interaction?, control?, target?, hc, ht, hline, htarget]

theorem pair?_of_not_isCnot (h : g.isCnot = false) : g.pair? = none := by
  rw [pair?, Option.map_eq_none_iff, Option.eq_none_iff_forall_ne_some]
  rintro ⟨control, target⟩ hpair
  obtain ⟨hnot, hc, -⟩ := cnot?_eq_some_iff.1 hpair
  have hcnot : g.isCnot = true := isCnot_iff.2 ⟨hnot, by rw [hc]; rfl⟩
  rw [h] at hcnot
  cases hcnot

end Gate

namespace Histogram

variable {lines : Nat} {gates : List Gate} {c : Circuit}

theorem mapM_interaction? (h : ∀ g ∈ gates, g.Fits lines) :
    (gates.filter Gate.isCnot).mapM (interaction? lines) = some (gates.filterMap Gate.pair?) := by
  induction gates with
  | nil => rfl
  | cons g gates ih =>
    obtain ⟨hfit, hrest⟩ := List.forall_mem_cons.1 h
    cases hcnot : g.isCnot with
    | false =>
      rw [List.filter_cons_of_neg (by simp [hcnot]), ih hrest,
        List.filterMap_cons_none (Gate.pair?_of_not_isCnot hcnot)]
    | true =>
      obtain ⟨pair, hpair, hinter⟩ := Gate.pair?_of_isCnot hfit hcnot
      rw [List.filter_cons_of_pos hcnot, List.mapM_cons, hinter, ih hrest,
        List.filterMap_cons_some hpair]
      rfl

theorem ofCircuit?_eq (hv : c.Valid) :
    ofCircuit? c = some ⟨c.lines, c.gates.filterMap Gate.pair?⟩ := by
  rw [ofCircuit?, mapM_interaction? hv]
  rfl

theorem tabulate?_eq_some_iff {h : Histogram} : tabulate? c = some h ↔
    fitsBlock wordBytes (c.lines * c.lines) = true ∧ ofCircuit? c = some h := by
  unfold tabulate?
  split_ifs with hfits <;> simp [hfits]

theorem tabulate?_of_le (hc : c.lines ≤ 2 ^ 30) : tabulate? c = ofCircuit? c := by
  have hfits : fitsBlock wordBytes (c.lines * c.lines) = true :=
    fitsBlock_of_le (Nat.mul_le_mul hc hc) (by decide)
  rw [tabulate?, if_pos hfits]

theorem inside_of_valid (hv : c.Valid) :
    Inside ⟨c.lines, c.gates.filterMap Gate.pair?⟩ := by
  intro pair hmem
  obtain ⟨g, hg, hpair⟩ := List.mem_filterMap.1 hmem
  obtain ⟨⟨control, target⟩, hcnot, rfl⟩ := Option.map_eq_some_iff.1 hpair
  obtain ⟨-, hc, rest, ht⟩ := Gate.cnot?_eq_some_iff.1 hcnot
  obtain ⟨hline, htarget, -⟩ := (hv g hg).pair hc ht
  exact ⟨hline, htarget⟩

end Histogram

end QubitRouting
