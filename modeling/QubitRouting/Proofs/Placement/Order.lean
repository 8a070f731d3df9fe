import Mathlib.Data.List.Lex
import Mathlib.Data.List.Sort
import Mathlib.Data.Prod.Lex
import Mathlib.Order.Lattice.Nat
import QubitRouting.Proofs.Placement.Candidates

/-!
The order in which layouts are met. The sets of images come in lexicographic order, each written in
ascending order, and the orderings of one set in lexicographic order too; so no layout is met twice,
and what decides between layouts of equal price is their position in this order.
-/

namespace QubitRouting

section Enumeration

variable {k : Nat} {xs : List Nat}

theorem pairwise_lt_map_cons {lists : List (List Nat)} (x : Nat)
    (h : lists.Pairwise (· < ·)) : (lists.map (x :: ·)).Pairwise (· < ·) :=
  List.pairwise_map.2 (h.imp fun hlt => List.cons_lt_cons_iff.2 (Or.inr ⟨rfl, hlt⟩))

theorem pairwise_choices (h : xs.Pairwise (· < ·)) : (choices k xs).Pairwise (· < ·) := by
  induction xs generalizing k with
  | nil => cases k <;> simp [choices]
  | cons x xs ih =>
    cases k with
    | zero => exact List.pairwise_singleton _ _
    | succ k =>
      obtain ⟨hx, hxs⟩ := List.pairwise_cons.1 h
      refine List.pairwise_append.2 ⟨pairwise_lt_map_cons x (ih hxs), ih hxs, ?_⟩
      intro ys hys zs hzs
      obtain ⟨rest, -, rfl⟩ := List.mem_map.1 hys
      obtain ⟨hsub, hlen⟩ := mem_choices.1 hzs
      obtain ⟨z, others, rfl⟩ := List.exists_cons_of_length_eq_add_one hlen
      exact List.cons_lt_cons_iff.2 (Or.inl (hx z (hsub.subset List.mem_cons_self)))

theorem pairwise_picks (h : xs.Pairwise (· < ·)) :
    (picks xs).Pairwise fun a b => a.1 < b.1 := by
  induction xs with
  | nil => exact .nil
  | cons x xs ih =>
    obtain ⟨hx, hxs⟩ := List.pairwise_cons.1 h
    refine List.pairwise_cons.2 ⟨List.forall_mem_map.2 ?_, List.pairwise_map.2 (ih hxs)⟩
    rintro ⟨y, rest⟩ hy
    obtain ⟨before, after, rfl, -⟩ := mem_picks.1 hy
    exact hx y (by simp)

theorem pairwise_arrangements (h : xs.Pairwise (· < ·)) :
    (arrangements k xs).Pairwise (· < ·) := by
  induction k generalizing xs with
  | zero => exact List.pairwise_singleton _ _
  | succ k ih =>
    refine List.pairwise_flatMap.2 ⟨?_, (pairwise_picks h).imp ?_⟩
    · rintro ⟨x, rest⟩ hx
      obtain ⟨before, after, rfl, rfl⟩ := mem_picks.1 hx
      have hsub : (before ++ after).Sublist (before ++ x :: after) :=
        (List.sublist_cons_self x after).append_left before
      exact pairwise_lt_map_cons x (ih (h.sublist hsub))
    · rintro ⟨x, rest⟩ ⟨y, others⟩ hlt as has bs hbs
      obtain ⟨_, -, rfl⟩ := List.mem_map.1 has
      obtain ⟨_, -, rfl⟩ := List.mem_map.1 hbs
      exact List.cons_lt_cons_iff.2 (Or.inl hlt)

end Enumeration

namespace Layout

/-- Layouts are ordered by the set of their images, in ascending order, then by the images. -/
def rank (l : Layout) : List Qubit ×ₗ List Qubit := toLex (l.images.mergeSort, l.images)

theorem mergeSort_of_mem {lines size : Nat} {images order : List Qubit}
    (himages : images ∈ choices lines (List.range size))
    (horder : order ∈ arrangements lines images) : order.mergeSort = images := by
  obtain ⟨hsub, hlen⟩ := mem_choices.1 himages
  have hperm : order.mergeSort.Perm images :=
    (List.mergeSort_perm order _).trans ((mem_arrangements hlen.symm).1 horder)
  have hsorted : images.Pairwise (· ≤ ·) :=
    (List.pairwise_lt_range.sublist hsub).imp Nat.le_of_lt
  exact hperm.eq_of_pairwise' (List.pairwise_mergeSort' (· ≤ ·) order) hsorted

theorem pairwise_injectiveLayouts (lines size : Nat) :
    (injectiveLayouts lines size).Pairwise (rank · < rank ·) := by
  have hrange : (List.range size).Pairwise (· < ·) := List.pairwise_lt_range
  unfold injectiveLayouts
  split_ifs
  · exact .nil
  refine List.pairwise_flatMap.2 ⟨fun images himages => ?_, ?_⟩
  · have hsub : images.Sublist (List.range size) := (mem_choices.1 himages).1
    refine List.pairwise_map.2 ((pairwise_arrangements (hrange.sublist hsub)).imp_of_mem ?_)
    intro order order' horder horder' hlt
    rw [rank, rank, mergeSort_of_mem himages horder, mergeSort_of_mem himages horder']
    exact Prod.Lex.toLex_lt_toLex.2 (Or.inr ⟨rfl, hlt⟩)
  · refine (pairwise_choices hrange).imp_of_mem ?_
    intro images images' himages himages' hlt l hl l' hl'
    obtain ⟨order, horder, rfl⟩ := List.mem_map.1 hl
    obtain ⟨order', horder', rfl⟩ := List.mem_map.1 hl'
    rw [rank, rank, mergeSort_of_mem himages horder, mergeSort_of_mem himages' horder']
    exact Prod.Lex.toLex_lt_toLex.2 (Or.inl hlt)

def estimates (h : Histogram) (r : Router) (lines : Nat) : Set Nat :=
  {e | ∃ l : Layout, l.Injects lines r.size ∧ l.estimate h r = e}

end Layout

section Candidates

variable {h : Histogram} {r : Router} {lines slack : Nat}

theorem pairwise_exhaustiveCandidates :
    (exhaustiveCandidates h r lines slack).Pairwise fun x y => x.1.rank < y.1.rank := by
  unfold exhaustiveCandidates
  simp only
  split
  · exact .nil
  · refine List.Pairwise.filter _ (List.pairwise_map.2 ?_)
    exact Layout.pairwise_injectiveLayouts lines r.size

theorem exists_least_estimate (hl : lines ≤ r.size) :
    ∃ least, IsLeast (Layout.estimates h r lines) least := by
  obtain ⟨l, hinjects⟩ := Layout.exists_injects hl
  have hne : (Layout.estimates h r lines).Nonempty := ⟨_, l, hinjects, rfl⟩
  exact ⟨sInf (Layout.estimates h r lines), Nat.sInf_mem hne, fun _ he => Nat.sInf_le he⟩

/-- The candidates are the layouts within the slack of the least estimate. -/
theorem mem_exhaustiveCandidates_iff_least {l : Layout} {e : Nat} :
    (l, e) ∈ exhaustiveCandidates h r lines slack ↔
      l.Injects lines r.size ∧ e = l.estimate h r ∧
        ∃ least, IsLeast (Layout.estimates h r lines) least ∧
          e ≤ min maxEstimate (least + slack) := by
  rw [mem_exhaustiveCandidates]
  refine and_congr_right fun hl => and_congr_right fun _ => ?_
  constructor
  · intro hwithin
    obtain ⟨least, hleast⟩ := exists_least_estimate (h := h) hl.le
    obtain ⟨l', hl', rfl⟩ := hleast.1
    exact ⟨_, hleast, hwithin l' hl'⟩
  · rintro ⟨least, hleast, hle⟩ l' hl'
    have := hleast.2 ⟨l', hl', rfl⟩
    omega

theorem exhaustiveCandidates_eq_nil_iff :
    exhaustiveCandidates h r lines slack = [] ↔ r.size < lines := by
  constructor
  · intro hnil
    by_contra hl
    exact exhaustiveCandidates_ne_nil (Nat.not_lt.1 hl) hnil
  · intro hlt
    refine List.eq_nil_iff_forall_not_mem.2 ?_
    rintro ⟨l, e⟩ hmem
    exact Nat.not_le.2 hlt (mem_exhaustiveCandidates.1 hmem).1.le

/-- The exhaustive candidates are exactly the injective layouts whose estimate is at most the least
one and the slack, each with its own estimate, without repetition, by sets of images and then by
their orderings. There are none exactly when the lines are more than the qubits. -/
theorem exhaustiveCandidates_exact (h : Histogram) (r : Router) (lines slack : Nat) :
    ((exhaustiveCandidates h r lines slack).map Prod.fst).Nodup ∧
    (∀ l e, (l, e) ∈ exhaustiveCandidates h r lines slack ↔
      l.Injects lines r.size ∧ e = l.estimate h r ∧
        ∃ least, IsLeast (Layout.estimates h r lines) least ∧
          e ≤ min maxEstimate (least + slack)) ∧
    ((exhaustiveCandidates h r lines slack).Pairwise fun x y => x.1.rank < y.1.rank) ∧
    (exhaustiveCandidates h r lines slack = [] ↔ r.size < lines) := by
  refine ⟨List.pairwise_map.2 ?_, fun l e => mem_exhaustiveCandidates_iff_least,
    pairwise_exhaustiveCandidates, exhaustiveCandidates_eq_nil_iff⟩
  refine pairwise_exhaustiveCandidates.imp fun hlt heq => ?_
  rw [heq] at hlt
  exact lt_irrefl _ hlt

end Candidates

end QubitRouting
