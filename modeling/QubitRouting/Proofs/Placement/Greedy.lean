import QubitRouting.Proofs.Placement.Candidates
import QubitRouting.Proofs.Placement.Search

/-!
The greedy layout sends the lines to different qubits of the device. Every round places one more
line on a qubit that is free, as long as a line is left, so all lines are placed in the end and none
of the images is shifted.
-/

namespace QubitRouting

theorem firstMin_eq_argmin {α : Type} (key : α → Nat) (l : List α) :
    firstMin key l = l.argmin key := by
  cases l with
  | nil => rfl
  | cons a rest => exact (foldl_argAux (fun b c => key b < key c) rest a).symm

theorem firstMax_eq_argmax {α : Type} (key : α → Nat) (l : List α) :
    firstMax key l = l.argmax key := by
  cases l with
  | nil => rfl
  | cons a rest => exact (foldl_argAux (fun b c => key c < key b) rest a).symm

namespace Greedy

variable {h : Histogram} {r : Router} {placed : Placed} {lines size : Nat} {line q : Qubit}

def taken (placed : Placed) : List Qubit := placed.filterMap id

theorem mem_taken : q ∈ taken placed ↔ some q ∈ placed := by
  simp [taken]

structure Sound (lines size : Nat) (placed : Placed) : Prop where
  length : placed.length = lines
  distinct : (taken placed).Nodup
  inside : ∀ q ∈ taken placed, q < size

theorem taken_set (hline : placed[line]? = some none) (q : Qubit) :
    (taken (placed.set line (some q))).Perm (q :: taken placed) := by
  induction placed generalizing line with
  | nil => cases hline
  | cons spot rest ih =>
    cases line with
    | zero =>
      obtain rfl := Option.some.inj hline
      exact .refl _
    | succ line =>
      have hrest := ih (show rest[line]? = some none from hline)
      cases spot with
      | none => exact hrest
      | some p => exact (hrest.cons p).trans (.swap q p _)

theorem Sound.set (hs : Sound lines size placed) (hline : placed[line]? = some none)
    (hq : q < size) (hfree : q ∉ taken placed) :
    Sound lines size (placed.set line (some q)) ∧
      (taken (placed.set line (some q))).length = (taken placed).length + 1 := by
  have hperm := taken_set hline q
  refine ⟨⟨by rw [List.length_set, hs.length], ?_, ?_⟩, hperm.length_eq⟩
  · exact hperm.nodup_iff.2 (List.nodup_cons.2 ⟨hfree, hs.distinct⟩)
  · intro p hp
    rcases List.mem_cons.1 (hperm.mem_iff.1 hp) with rfl | hp
    · exact hq
    · exact hs.inside p hp

theorem mem_waiting : line ∈ waiting placed ↔ placed[line]? = some none := by
  unfold waiting
  rw [List.mem_filterMap]
  constructor
  · rintro ⟨⟨spot, place⟩, hmem, hline⟩
    rw [List.mem_zipIdx_iff_getElem?] at hmem
    simp only at hmem hline
    split_ifs at hline with hspot
    obtain rfl := Option.some.inj hline
    rw [hmem, Option.isNone_iff_eq_none.1 hspot]
  · intro hline
    exact ⟨(none, line), List.mem_zipIdx_iff_getElem?.2 hline, rfl⟩

theorem mem_free : q ∈ (List.range size).filter (!isUsed placed ·) ↔
    q < size ∧ q ∉ taken placed := by
  rw [List.mem_filter, List.mem_range, mem_taken, isUsed]
  simp

theorem Sound.exists_next (hs : Sound lines r.size placed) (hl : lines ≤ r.size)
    (hlt : (taken placed).length < lines) :
    ∃ line q, nextLine h placed = some line ∧ nextSpot h r placed line = some q := by
  have hwaiting : waiting placed ≠ [] := by
    have hnone : ¬ ∀ spot ∈ placed, (id spot).isSome := by
      rw [← List.filterMap_length_eq_length, hs.length]
      exact hlt.ne
    simp only [id_eq, not_forall, Bool.not_eq_true, Option.isSome_eq_false_iff,
      Option.isNone_iff_eq_none] at hnone
    obtain ⟨spot, hspot, rfl⟩ := hnone
    obtain ⟨line, hline⟩ := List.mem_iff_getElem?.1 hspot
    exact List.ne_nil_of_mem (mem_waiting.2 hline)
  have hfree : (List.range r.size).filter (!isUsed placed ·) ≠ [] := by
    intro hnil
    have hall : List.range r.size ⊆ taken placed := by
      intro q hq
      by_contra hno
      exact List.ne_nil_of_mem (mem_free.2 ⟨List.mem_range.1 hq, hno⟩) hnil
    have := (List.nodup_range.subperm hall).length_le
    rw [List.length_range] at this
    omega
  obtain ⟨line, hline⟩ : ∃ line, nextLine h placed = some line := by
    rw [nextLine, firstMax_eq_argmax]
    exact Option.ne_none_iff_exists'.1 (mt List.argmax_eq_none.1 hwaiting)
  obtain ⟨q, hq⟩ : ∃ q, nextSpot h r placed line = some q := by
    rw [nextSpot, firstMin_eq_argmin]
    exact Option.ne_none_iff_exists'.1 (mt List.argmin_eq_none.1 hfree)
  exact ⟨line, q, hline, hq⟩

theorem Sound.place (hs : Sound lines r.size placed) (hline : nextLine h placed = some line)
    (hq : nextSpot h r placed line = some q) :
    Sound lines r.size (placed.set line (some q)) ∧
      (taken (placed.set line (some q))).length = (taken placed).length + 1 := by
  rw [nextLine, firstMax_eq_argmax] at hline
  rw [nextSpot, firstMin_eq_argmin] at hq
  obtain ⟨hsize, hfree⟩ := mem_free.1 (List.argmin_mem hq)
  exact hs.set (mem_waiting.1 (List.argmax_mem hline)) hsize hfree

theorem Sound.grow (hs : Sound lines r.size placed) (hl : lines ≤ r.size) :
    Sound lines r.size (grow h r placed) ∧
      min lines ((taken placed).length + 1) ≤ (taken (grow h r placed)).length := by
  have hdone : ¬ (taken placed).length < lines →
      min lines ((taken placed).length + 1) ≤ (taken placed).length := by omega
  unfold Greedy.grow
  cases hline : nextLine h placed with
  | none =>
    refine ⟨hs, hdone fun hlt => ?_⟩
    obtain ⟨line, q, hsome, -⟩ := hs.exists_next (h := h) hl hlt
    rw [hline] at hsome
    cases hsome
  | some line =>
    cases hq : nextSpot h r placed line with
    | none =>
      simp only [hq]
      refine ⟨hs, hdone fun hlt => ?_⟩
      obtain ⟨line', q, hsome, hspot⟩ := hs.exists_next (h := h) hl hlt
      obtain rfl : line = line' := Option.some.inj (hline.symm.trans hsome)
      rw [hq] at hspot
      cases hspot
    | some q =>
      simp only [hq]
      obtain ⟨hsound, hlength⟩ := hs.place hline hq
      exact ⟨hsound, hlength ▸ Nat.min_le_right _ _⟩

theorem mem_heavyPairs {a b : Qubit} :
    (a, b) ∈ (linePairs (busyLines h lines)).filter (fun (a, b) => 0 < h.weight a b) ↔
      a < b ∧ b < lines ∧ 0 < h.weight a b := by
  simp only [linePairs, busyLines, List.mem_filter, List.mem_flatMap, List.mem_map,
    Prod.mk.injEq, List.mem_range, decide_eq_true_eq, List.any_eq_true, Bool.or_eq_true,
    beq_iff_eq]
  constructor
  · rintro ⟨⟨a, -, b, ⟨⟨hb, -⟩, hab⟩, rfl, rfl⟩, hweight⟩
    exact ⟨hab, hb, hweight⟩
  · rintro ⟨hab, hb, hweight⟩
    have hpair : ∃ pair ∈ h.pairs, pair = (a, b) ∨ pair = (b, a) := by
      by_contra hno
      simp only [not_exists, not_and, not_or] at hno
      have hzero : h.count a b = 0 := List.count_eq_zero.2 fun hmem => (hno _ hmem).1 rfl
      have hback : h.count b a = 0 := List.count_eq_zero.2 fun hmem => (hno _ hmem).2 rfl
      rw [Histogram.weight, hzero, hback] at hweight
      cases hweight
    obtain ⟨pair, hmem, hends⟩ := hpair
    refine ⟨⟨a, ⟨hab.trans hb, pair, hmem, ?_⟩, b, ⟨⟨hb, pair, hmem, ?_⟩, hab⟩, rfl, rfl⟩, hweight⟩
    · rcases hends with rfl | rfl <;> simp
    · rcases hends with rfl | rfl <;> simp

theorem mem_heaviestPair {a b : Qubit} (hpair : heaviestPair h lines = some (a, b)) :
    a < b ∧ b < lines := by
  rw [heaviestPair, firstMax_eq_argmax] at hpair
  obtain ⟨hab, hb, -⟩ := mem_heavyPairs.1 (List.argmax_mem hpair)
  exact ⟨hab, hb⟩

theorem weight_le_heaviestPair {a b a' b' : Qubit} (hpair : heaviestPair h lines = some (a, b))
    (ha' : a' < lines) (hb' : b' < lines) (hne : a' ≠ b') : h.weight a' b' ≤ h.weight a b := by
  rw [heaviestPair, firstMax_eq_argmax] at hpair
  have hle : ∀ {x y : Qubit}, x < y → y < lines → h.weight x y ≤ h.weight a b := by
    intro x y hxy hy
    rcases Nat.eq_zero_or_pos (h.weight x y) with hzero | hpos
    · rw [hzero]
      exact Nat.zero_le _
    · exact List.le_of_mem_argmax (f := fun x => h.weight x.1 x.2)
        (mem_heavyPairs.2 ⟨hxy, hy, hpos⟩) hpair
  rcases Nat.lt_or_gt_of_ne hne with hlt | hgt
  · exact hle hlt hb'
  · have hswap : h.weight a' b' = h.weight b' a' := Nat.add_comm _ _
    rw [hswap]
    exact hle hgt ha'

theorem weight_eq_zero_of_no_pair {a b : Qubit} (hnone : heaviestPair h lines = none)
    (ha : a < lines) (hb : b < lines) (hne : a ≠ b) : h.weight a b = 0 := by
  rw [heaviestPair, firstMax_eq_argmax, List.argmax_eq_none] at hnone
  have hzero : ∀ {x y : Qubit}, x < y → y < lines → h.weight x y = 0 := by
    intro x y hxy hy
    by_contra hpos
    exact List.ne_nil_of_mem (mem_heavyPairs.2 ⟨hxy, hy, Nat.pos_of_ne_zero hpos⟩) hnone
  rcases Nat.lt_or_gt_of_ne hne with hlt | hgt
  · exact hzero hlt hb
  · exact (Nat.add_comm _ _).trans (hzero hgt ha)

theorem mem_qubitPairs {p : Qubit} :
    (p, q) ∈ (List.range size).flatMap (fun p => ((List.range size).filter (· ≠ p)).map (p, ·)) ↔
      p < size ∧ q < size ∧ p ≠ q := by
  simp only [List.mem_flatMap, List.mem_map, List.mem_filter, List.mem_range, Prod.mk.injEq,
    decide_eq_true_eq]
  constructor
  · rintro ⟨p, hp, q, ⟨hq, hne⟩, rfl, rfl⟩
    exact ⟨hp, hq, Ne.symm hne⟩
  · rintro ⟨hp, hq, hne⟩
    exact ⟨p, hp, q, ⟨hq, hne.symm⟩, rfl, rfl⟩

theorem mem_cheapestPair {a b p q : Qubit} (hpair : cheapestPair h r a b = some (p, q)) :
    p < r.size ∧ q < r.size ∧ p ≠ q := by
  rw [cheapestPair, firstMin_eq_argmin] at hpair
  exact mem_qubitPairs.1 (List.argmin_mem hpair)

theorem cheapestPair_le {a b p q p' q' : Qubit} (hpair : cheapestPair h r a b = some (p, q))
    (hp : p' < r.size) (hq : q' < r.size) (hne : p' ≠ q') :
    pairPrice h r a b p q ≤ pairPrice h r a b p' q' := by
  rw [cheapestPair, firstMin_eq_argmin] at hpair
  exact List.le_of_mem_argmin (f := fun x => pairPrice h r a b x.1 x.2)
    (mem_qubitPairs.2 ⟨hp, hq, hne⟩) hpair

theorem exists_cheapestPair {a b : Qubit} (hsize : 2 ≤ r.size) :
    ∃ p q, cheapestPair h r a b = some (p, q) := by
  rw [cheapestPair, firstMin_eq_argmin]
  have hmem := mem_qubitPairs.2 ⟨(by omega : 0 < r.size), (by omega : 1 < r.size), Nat.zero_ne_one⟩
  have hsome := mt (List.argmin_eq_none (f := fun x : Qubit × Qubit => pairPrice h r a b x.1 x.2)).1
    (List.ne_nil_of_mem hmem)
  obtain ⟨⟨p, q⟩, hpair⟩ := Option.ne_none_iff_exists'.1 hsome
  exact ⟨p, q, hpair⟩

theorem sound_empty : Sound lines size (List.replicate lines none) := by
  have htaken : taken (List.replicate lines none) = [] := by
    simp [taken]
  refine ⟨List.length_replicate, ?_, ?_⟩
  · rw [htaken]
    exact List.nodup_nil
  · rw [htaken]
    exact fun q hq => by cases hq

theorem sound_start : Sound lines r.size (start h r lines) := by
  unfold start
  cases hpair : heaviestPair h lines with
  | none => exact sound_empty
  | some pair =>
    obtain ⟨a, b⟩ := pair
    cases hspots : cheapestPair h r a b with
    | none =>
      simp only [hspots]
      exact sound_empty
    | some spots =>
      obtain ⟨p, q⟩ := spots
      obtain ⟨hab, hb⟩ := mem_heaviestPair hpair
      obtain ⟨hp, hq, hpq⟩ := mem_cheapestPair hspots
      simp only [hspots]
      have hfirst : (List.replicate lines (none : Option Qubit))[a]? = some none := by
        rw [List.getElem?_replicate, if_pos (hab.trans hb)]
      have hempty : Sound lines r.size (List.replicate lines none) := sound_empty
      obtain ⟨hsound, -⟩ := hempty.set hfirst hp (by simp [taken])
      have hsecond : ((List.replicate lines (none : Option Qubit)).set a (some p))[b]? =
          some none := by
        rw [List.getElem?_set_ne hab.ne, List.getElem?_replicate, if_pos hb]
      refine (hsound.set hsecond hq fun hmem => hpq ?_).1
      have := (taken_set hfirst p).mem_iff.1 hmem
      simpa [taken, eq_comm] using this

end Greedy

namespace Greedy

def rounds (h : Histogram) (r : Router) (lines count : Nat) : Placed :=
  count.fold (fun _ _ placed => grow h r placed) (start h r lines)

theorem rounds_succ (h : Histogram) (r : Router) (lines count : Nat) :
    rounds h r lines (count + 1) = grow h r (rounds h r lines count) :=
  Nat.fold_succ ..

theorem sound_rounds (h : Histogram) (r : Router) {lines : Nat} (hl : lines ≤ r.size)
    (count : Nat) : Sound lines r.size (rounds h r lines count) ∧
      min lines count ≤ (taken (rounds h r lines count)).length := by
  induction count with
  | zero => exact ⟨sound_start, by simp⟩
  | succ count ih =>
    obtain ⟨hsound, hcount⟩ := ih
    obtain ⟨hgrown, hmore⟩ := hsound.grow (h := h) hl
    rw [rounds_succ]
    exact ⟨hgrown, by omega⟩

theorem length_taken_rounds (h : Histogram) (r : Router) {lines : Nat} (hl : lines ≤ r.size) :
    (taken (rounds h r lines (min lines r.size))).length = lines := by
  obtain ⟨hsound, hcount⟩ := sound_rounds h r hl (min lines r.size)
  have hle := List.length_filterMap_le id (rounds h r lines (min lines r.size))
  rw [hsound.length] at hle
  have hall : lines ≤ min lines (min lines r.size) := by omega
  exact Nat.le_antisymm hle (hall.trans hcount)

end Greedy

theorem injects_greedyLayout (h : Histogram) (r : Router) {lines : Nat} (hl : lines ≤ r.size) :
    (greedyLayout h r lines).Injects lines r.size := by
  obtain ⟨hsound, -⟩ := Greedy.sound_rounds h r hl (min lines r.size)
  exact ⟨Greedy.length_taken_rounds h r hl, hsound.distinct, hsound.inside⟩

section Room

variable {h : Histogram} {r : Router} {lines : Nat}

theorem greedyLayout?_eq_some_iff {l : Layout} : greedyLayout? h r lines = some l ↔
    fitsBlock wordBytes lines = true ∧ greedyLayout h r lines = l := by
  unfold greedyLayout?
  split_ifs with hfits <;> simp [hfits]

theorem greedyLayout?_of_le (hl : lines ≤ wordBound) :
    greedyLayout? h r lines = some (greedyLayout h r lines) :=
  greedyLayout?_eq_some_iff.2 ⟨fitsBlock_of_le hl (by decide), rfl⟩

end Room

end QubitRouting
