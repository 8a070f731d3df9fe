import Mathlib.Data.List.Perm.Subperm
import Mathlib.Data.List.MinMax
import QubitRouting.Placement.Candidates

/-!
The layouts among which a search chooses. The enumeration meets every layout that sends the lines to
different qubits of the device, and the candidates are those of them whose estimate no other one
undercuts by more than the slack.
-/

namespace QubitRouting

section Enumeration

variable {α : Type} {k : Nat} {xs ys rest : List α} {x : α}

theorem mem_choices : ys ∈ choices k xs ↔ ys.Sublist xs ∧ ys.length = k := by
  induction xs generalizing k ys with
  | nil =>
    cases k with
    | zero => simp [choices]
    | succ k =>
      simp only [choices, List.not_mem_nil, List.sublist_nil, false_iff]
      rintro ⟨rfl, hlen⟩
      cases hlen
  | cons x xs ih =>
    cases k with
    | zero =>
      rw [choices, List.mem_singleton, List.length_eq_zero_iff]
      exact ⟨fun h => ⟨h ▸ List.nil_sublist _, h⟩, fun h => h.2⟩
    | succ k =>
      simp only [choices, List.mem_append, List.mem_map, ih, List.sublist_cons_iff]
      constructor
      · rintro (⟨zs, ⟨hsub, hlen⟩, rfl⟩ | ⟨hsub, hlen⟩)
        · exact ⟨Or.inr ⟨zs, rfl, hsub⟩, by rw [List.length_cons, hlen]⟩
        · exact ⟨Or.inl hsub, hlen⟩
      · rintro ⟨hsub | ⟨zs, rfl, hsub⟩, hlen⟩
        · exact Or.inr ⟨hsub, hlen⟩
        · exact Or.inl ⟨zs, ⟨hsub, Nat.succ.inj hlen⟩, rfl⟩

theorem mem_picks : (x, rest) ∈ picks xs ↔ ∃ before after, xs = before ++ x :: after ∧
    rest = before ++ after := by
  induction xs generalizing rest with
  | nil => simp [picks]
  | cons y ys ih =>
    simp only [picks, List.mem_cons, Prod.mk.injEq, List.mem_map, Prod.exists]
    constructor
    · rintro (⟨rfl, rfl⟩ | ⟨z, others, hz, rfl, rfl⟩)
      · exact ⟨[], rest, rfl, rfl⟩
      · obtain ⟨before, after, rfl, rfl⟩ := ih.1 hz
        exact ⟨y :: before, after, rfl, rfl⟩
    · rintro ⟨before, after, heq, rfl⟩
      cases before with
      | nil =>
        obtain ⟨rfl, rfl⟩ := List.cons.inj heq
        exact Or.inl ⟨rfl, rfl⟩
      | cons z before =>
        obtain ⟨rfl, rfl⟩ := List.cons.inj heq
        exact Or.inr ⟨x, before ++ after, ih.2 ⟨before, after, rfl, rfl⟩, rfl, rfl⟩

theorem mem_arrangements (hk : k = xs.length) : ys ∈ arrangements k xs ↔ ys.Perm xs := by
  induction k generalizing xs ys with
  | zero =>
    obtain rfl := List.length_eq_zero_iff.1 hk.symm
    simp [arrangements]
  | succ k ih =>
    simp only [arrangements, List.mem_flatMap, Prod.exists, List.mem_map]
    constructor
    · rintro ⟨x, rest, hx, zs, hzs, rfl⟩
      obtain ⟨before, after, rfl, rfl⟩ := mem_picks.1 hx
      have hlen : k = (before ++ after).length := by
        simp only [List.length_append, List.length_cons] at hk ⊢
        omega
      exact (((ih hlen).1 hzs).cons x).trans List.perm_middle.symm
    · intro hperm
      cases ys with
      | nil =>
        rw [hperm.length_eq.symm] at hk
        cases hk
      | cons y zs =>
        obtain ⟨before, after, rfl⟩ := List.append_of_mem (hperm.mem_iff.1 List.mem_cons_self)
        have hlen : k = (before ++ after).length := by
          simp only [List.length_append, List.length_cons] at hk ⊢
          omega
        refine ⟨y, before ++ after, mem_picks.2 ⟨before, after, rfl, rfl⟩, zs, ?_, rfl⟩
        exact (ih hlen).2 (hperm.trans List.perm_middle).cons_inv

end Enumeration

namespace Layout

structure Injects (lines size : Nat) (l : Layout) : Prop where
  length : l.images.length = lines
  distinct : l.images.Nodup
  inside : ∀ q ∈ l.images, q < size

instance (lines size : Nat) (l : Layout) : Decidable (l.Injects lines size) :=
  decidable_of_iff (l.images.length = lines ∧ l.images.Nodup ∧ ∀ q ∈ l.images, q < size)
    ⟨fun h => ⟨h.1, h.2.1, h.2.2⟩, fun h => ⟨h.length, h.distinct, h.inside⟩⟩

structure Covers (lines size : Nat) (l : Layout) : Prop where
  long : lines ≤ l.size
  distinct : l.images.Nodup
  inside : ∀ q ∈ l.images, q < size

variable {lines size : Nat} {l : Layout}

theorem Injects.covers (h : l.Injects lines size) : l.Covers lines size :=
  ⟨h.length.ge, h.distinct, h.inside⟩

theorem Injects.le (h : l.Injects lines size) : lines ≤ size := by
  have hsub : l.images ⊆ List.range size := fun q hq => List.mem_range.2 (h.inside q hq)
  have := (h.distinct.subperm hsub).length_le
  rwa [h.length, List.length_range] at this

theorem fault?_eq_none_iff {images taken : List Qubit} {line : Nat} :
    fault? size line taken images = none ↔
      images.Nodup ∧ (∀ q ∈ images, q < size) ∧ ∀ q ∈ images, q ∉ taken := by
  induction images generalizing line taken with
  | nil => simp [fault?]
  | cons q rest ih =>
    rw [fault?, List.nodup_cons]
    split_ifs with hsize htaken
    · refine iff_of_false nofun fun h => ?_
      exact Nat.not_le.2 (h.2.1 q List.mem_cons_self) hsize
    · exact iff_of_false nofun fun h => h.2.2 q List.mem_cons_self htaken
    · rw [ih]
      constructor
      · rintro ⟨hdistinct, hinside, hfree⟩
        have hq : q ∉ rest := fun hmem => hfree q hmem List.mem_cons_self
        refine ⟨⟨hq, hdistinct⟩, List.forall_mem_cons.2 ⟨Nat.not_le.1 hsize, hinside⟩, ?_⟩
        exact List.forall_mem_cons.2 ⟨htaken, fun x hx hmem =>
          hfree x hx (List.mem_cons_of_mem q hmem)⟩
      · rintro ⟨⟨hq, hdistinct⟩, hinside, hfree⟩
        refine ⟨hdistinct, fun x hx => hinside x (List.mem_cons_of_mem q hx), fun x hx hmem => ?_⟩
        rcases List.mem_cons.1 hmem with rfl | hmem
        · exact hq hx
        · exact hfree x (List.mem_cons_of_mem q hx) hmem

theorem Injects.make_eq_ok (h : l.Injects lines size) : make l.images size = .ok l := by
  have hnone : fault? size 0 [] l.images = none :=
    fault?_eq_none_iff.2 ⟨h.distinct, h.inside, fun _ _ => List.not_mem_nil⟩
  rw [make, hnone]

theorem mem_injectiveLayouts : l ∈ injectiveLayouts lines size ↔ l.Injects lines size := by
  have hrange : (List.range size).Nodup := List.nodup_range
  unfold injectiveLayouts
  constructor
  · intro h
    split_ifs at h
    · cases h
    obtain ⟨images, himages, h⟩ := List.mem_flatMap.1 h
    obtain ⟨hsub, hlen⟩ := mem_choices.1 himages
    obtain ⟨order, horder, rfl⟩ := List.mem_map.1 h
    have hperm : order.Perm images := (mem_arrangements hlen.symm).1 horder
    constructor
    · rw [hperm.length_eq, hlen]
    · exact hperm.nodup_iff.2 (hrange.sublist hsub)
    · intro q hq
      exact List.mem_range.1 (hsub.subset (hperm.mem_iff.1 hq))
  · intro h
    rw [if_neg (Nat.not_lt.2 h.le)]
    let images := (List.range size).filter (· ∈ l.images)
    have hperm : l.images.Perm images := by
      rw [List.perm_ext_iff_of_nodup h.distinct (hrange.filter _)]
      intro q
      simp only [List.mem_filter, List.mem_range, decide_eq_true_eq]
      exact ⟨fun hq => ⟨h.inside q hq, hq⟩, fun hq => hq.2⟩
    have hlen : images.length = lines := by rw [← hperm.length_eq, h.length]
    refine List.mem_flatMap.2 ⟨images, mem_choices.2 ⟨List.filter_sublist, hlen⟩, ?_⟩
    exact List.mem_map.2 ⟨l.images, (mem_arrangements hlen.symm).2 hperm, rfl⟩

theorem exists_injects (h : lines ≤ size) : ∃ l : Layout, l.Injects lines size := by
  refine ⟨trivial lines, List.length_range, List.nodup_range, fun q hq => ?_⟩
  exact Nat.lt_of_lt_of_le (List.mem_range.1 hq) h

theorem estimate_le (l : Layout) (h : Histogram) (r : Router) : l.estimate h r ≤ maxEstimate := by
  refine List.foldlRecOn (motive := (· ≤ maxEstimate)) _ _ (Nat.zero_le _) ?_
  intro sum _ i _
  exact Nat.min_le_left _ _

end Layout

section Candidates

variable {h : Histogram} {r : Router} {lines slack slack' : Nat} {l : Layout} {e : Nat}

/-- The candidates are the layouts within the slack of all others, with their estimates. -/
theorem mem_exhaustiveCandidates : (l, e) ∈ exhaustiveCandidates h r lines slack ↔
    l.Injects lines r.size ∧ e = l.estimate h r ∧
      ∀ l' : Layout, l'.Injects lines r.size → e ≤ min maxEstimate (l'.estimate h r + slack) := by
  have hscored : (((injectiveLayouts lines r.size).map fun l =>
      (l, l.estimateOf h.interactions r)).map Prod.snd) =
      (injectiveLayouts lines r.size).map fun l => l.estimate h r := by
    rw [List.map_map]
    rfl
  unfold exhaustiveCandidates
  simp only [hscored]
  cases hleast : ((injectiveLayouts lines r.size).map fun l => l.estimate h r).min? with
  | none =>
    rw [List.min?_eq_none_iff, List.map_eq_nil_iff] at hleast
    simp only [List.not_mem_nil, false_iff]
    rintro ⟨hl, -⟩
    rw [← Layout.mem_injectiveLayouts, hleast] at hl
    cases hl
  | some least =>
    obtain ⟨hmem, hle⟩ := List.min?_eq_some_iff.1 hleast
    obtain ⟨first, hfirst, rfl⟩ := List.mem_map.1 hmem
    have hbound : e ≤ min maxEstimate (first.estimate h r + slack) ↔
        ∀ l' : Layout, l'.Injects lines r.size →
          e ≤ min maxEstimate (l'.estimate h r + slack) := by
      constructor
      · intro he l' hl'
        have := hle _ (List.mem_map_of_mem (Layout.mem_injectiveLayouts.2 hl'))
        omega
      · exact fun he => he first (Layout.mem_injectiveLayouts.1 hfirst)
    simp only [List.mem_filter, List.mem_map, Prod.mk.injEq, decide_eq_true_eq, hbound]
    constructor
    · rintro ⟨⟨l, hl, rfl, rfl⟩, he⟩
      exact ⟨Layout.mem_injectiveLayouts.1 hl, rfl, he⟩
    · rintro ⟨hl, rfl, he⟩
      exact ⟨⟨l, Layout.mem_injectiveLayouts.2 hl, rfl, rfl⟩, he⟩

theorem exhaustiveCandidates?_eq_some_iff {found : List (Layout × Nat)} :
    exhaustiveCandidates? h r lines slack = some found ↔
      fitsBlock longBytes lines = true ∧ exhaustiveCandidates h r lines slack = found := by
  unfold exhaustiveCandidates?
  split_ifs with hfits <;> simp [hfits]

theorem exhaustiveCandidates?_of_le (hl : lines ≤ wordBound) :
    exhaustiveCandidates? h r lines slack = some (exhaustiveCandidates h r lines slack) :=
  exhaustiveCandidates?_eq_some_iff.2 ⟨fitsBlock_of_le hl (by decide), rfl⟩

theorem exhaustiveCandidates_mono (hs : slack ≤ slack') :
    exhaustiveCandidates h r lines slack ⊆ exhaustiveCandidates h r lines slack' := by
  rintro ⟨l, e⟩ hmem
  obtain ⟨hl, he, hwithin⟩ := mem_exhaustiveCandidates.1 hmem
  refine mem_exhaustiveCandidates.2 ⟨hl, he, fun l' hl' => ?_⟩
  have := hwithin l' hl'
  omega

/-- With a slack that no estimate exceeds, the candidates are all injective layouts. -/
theorem mem_exhaustiveCandidates_of_full (hs : maxEstimate ≤ slack) :
    (l, e) ∈ exhaustiveCandidates h r lines slack ↔
      l.Injects lines r.size ∧ e = l.estimate h r := by
  rw [mem_exhaustiveCandidates]
  constructor
  · exact fun hmem => ⟨hmem.1, hmem.2.1⟩
  · rintro ⟨hl, rfl⟩
    refine ⟨hl, rfl, fun l' _ => ?_⟩
    have := l.estimate_le h r
    omega

theorem exhaustiveCandidates_ne_nil (hl : lines ≤ r.size) :
    exhaustiveCandidates h r lines slack ≠ [] := by
  obtain ⟨first, hfirst⟩ := Layout.exists_injects hl
  obtain ⟨least, hleast⟩ : ∃ least, least ∈
      (injectiveLayouts lines r.size).argmin fun l => l.estimate h r := by
    refine Option.ne_none_iff_exists'.1 fun hnone => ?_
    rw [List.argmin_eq_none] at hnone
    exact List.ne_nil_of_mem (Layout.mem_injectiveLayouts.2 hfirst) hnone
  have hinjects := Layout.mem_injectiveLayouts.1 (List.argmin_mem hleast)
  refine List.ne_nil_of_mem (mem_exhaustiveCandidates.2 ⟨hinjects, rfl, fun l' hl' => ?_⟩)
  have hle := List.le_of_mem_argmin (Layout.mem_injectiveLayouts.2 hl') hleast
  have := least.estimate_le h r
  omega

end Candidates

end QubitRouting
