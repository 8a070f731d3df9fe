import Mathlib.Algebra.Order.BigOperators.Group.List
import QubitRouting.Proofs.Placement.Greedy
import QubitRouting.Proofs.Placement.Histogram
import QubitRouting.Proofs.Table.Price

/-!
How the greedy layout grows. The heaviest pair of lines goes on the cheapest pair of qubits, then
every line on a free qubit of least increment; an increment is what the interactions with the lines
placed before add to the price, so the estimate of the layout is the sum of what was paid.
-/

namespace QubitRouting

/-- Counts between different lines below a number, fewer in all than there are words. -/
structure Histogram.Proper (h : Histogram) (lines : Nat) : Prop where
  inside : h.Inside
  covered : h.lines ≤ lines
  apart : ∀ p ∈ h.pairs, p.1 ≠ p.2
  few : h.total < wordBound

instance (h : Histogram) (lines : Nat) : Decidable (h.Proper lines) :=
  decidable_of_iff ((∀ p ∈ h.pairs, p.1 < h.lines ∧ p.2 < h.lines) ∧ h.lines ≤ lines ∧
      (∀ p ∈ h.pairs, p.1 ≠ p.2) ∧ h.total < wordBound)
    ⟨fun hh => ⟨hh.1, hh.2.1, hh.2.2.1, hh.2.2.2⟩,
      fun hh => ⟨hh.inside, hh.covered, hh.apart, hh.few⟩⟩

namespace Histogram

variable {h : Histogram} {lines l a b : Nat}

theorem Proper.below (hh : h.Proper lines) : ∀ p ∈ h.pairs, p.1 < lines ∧ p.2 < lines := by
  intro p hp
  obtain ⟨hc, ht⟩ := hh.inside p hp
  exact ⟨Nat.lt_of_lt_of_le hc hh.covered, Nat.lt_of_lt_of_le ht hh.covered⟩

theorem Proper.count_self (hh : h.Proper lines) (l : Nat) : h.count l l = 0 :=
  List.count_eq_zero.2 fun hp => hh.apart _ hp rfl

theorem sum_cross (hl : l < lines) (row column : Nat → Nat) :
    (∑ c ∈ Finset.range lines, ∑ t ∈ Finset.range lines,
      ((if c = l then row t else 0) + (if t = l then column c else 0))) =
      ∑ k ∈ Finset.range lines, (row k + column k) := by
  have hmem : l ∈ Finset.range lines := Finset.mem_range.2 hl
  simp only [Finset.sum_add_distrib]
  congr 1
  · rw [Finset.sum_comm]
    exact Finset.sum_congr rfl fun t _ => by rw [Finset.sum_ite_eq', if_pos hmem]
  · exact Finset.sum_congr rfl fun c _ => by rw [Finset.sum_ite_eq', if_pos hmem]

/-- A gate has a line at one end at most. -/
theorem Proper.sum_weight_le (hh : h.Proper lines) (hl : l < lines) :
    ∑ k ∈ Finset.range lines, h.weight l k ≤ h.total := by
  let ends : Nat → Nat → Nat := fun c t => (if c = l then 1 else 0) + (if t = l then 1 else 0)
  have hone : ∀ p ∈ h.pairs, ends p.1 p.2 ≤ 1 := by
    intro p hp
    simp only [ends]
    split_ifs with hc ht
    · exact absurd (hc.trans ht.symm) (hh.apart p hp)
    all_goals decide
  have hrows := h.sum_rows hh.below ends
  have hcross : ∀ c t, h.count c t * ends c t =
      (if c = l then h.count l t else 0) + (if t = l then h.count c l else 0) := by
    intro c t
    rw [Nat.mul_add]
    congr 1
    · by_cases hc : c = l <;> simp [hc]
    · by_cases ht : t = l <;> simp [ht]
  simp only [hcross, sum_cross hl] at hrows
  change ∑ k ∈ Finset.range lines, (h.count l k + h.count k l) ≤ _
  rw [← hrows]
  refine (List.sum_le_card_nsmul _ 1 (List.forall_mem_map.2 hone)).trans_eq ?_
  rw [List.length_map, smul_eq_mul, Nat.mul_one, total]

theorem Proper.weight_le (hh : h.Proper lines) (ha : a < lines) (hb : b < lines) :
    h.weight a b ≤ h.total :=
  (Finset.single_le_sum (f := h.weight a) (fun _ _ => Nat.zero_le _)
    (Finset.mem_range.2 hb)).trans (hh.sum_weight_le ha)

end Histogram

namespace Greedy

variable {h : Histogram} {r : Router} {placed opening : Placed} {lines size line k : Nat}
  {p q : Qubit}

def spot (placed : Placed) (line : Nat) : Option Qubit := placed[line]?.join

theorem spot_eq_none (hline : placed[line]? = some none) : spot placed line = none := by
  rw [spot, hline]
  rfl

theorem spot_set (hline : line < placed.length) (q : Qubit) (k : Nat) :
    spot (placed.set line (some q)) k = if k = line then some q else spot placed k := by
  by_cases hk : k = line
  · subst hk
    rw [spot, List.getElem?_set_self hline, if_pos rfl]
    rfl
  · rw [spot, List.getElem?_set_ne (Ne.symm hk), if_neg hk, spot]

theorem spot_replicate (lines k : Nat) : spot (List.replicate lines none) k = none := by
  rw [spot, List.getElem?_replicate]
  split_ifs <;> rfl

theorem sum_settled (placed : Placed) (f : Qubit → Qubit → Nat) :
    ((settled placed).map fun x => f x.1 x.2).sum =
      ∑ k ∈ Finset.range placed.length, (spot placed k).elim 0 (f k) := by
  have hspots : placed.zipIdx.map (fun x => x.1.elim 0 (f x.2)) =
      (List.range placed.length).map fun k => (spot placed k).elim 0 (f k) := by
    refine List.ext_getElem (by simp) fun i hi _ => ?_
    have hlen : i < placed.length := by simpa using hi
    simp [spot, hlen]
  have hsettled : ((settled placed).map fun x => f x.1 x.2).sum =
      (placed.zipIdx.map fun x => (x.1.map (x.2, ·)).elim 0 fun x => f x.1 x.2).sum :=
    sum_filterMap (fun x => f x.1 x.2) (fun x => x.1.map (x.2, ·)) placed.zipIdx
  rw [hsettled]
  refine Eq.trans (congrArg List.sum ?_) (congrArg List.sum hspots)
  exact List.map_congr_left fun x _ => by cases x.1 <;> rfl

section Price

/-- The price of a pair of lines on their qubits; nothing as long as one is not placed. -/
def between (r : Router) : Option Qubit → Option Qubit → Nat
  | some p, some q => r.price p q
  | _, _ => 0

@[simp] theorem between_none_left (r : Router) (s : Option Qubit) : between r none s = 0 := rfl

@[simp] theorem between_none_right (r : Router) (s : Option Qubit) : between r s none = 0 := by
  cases s <;> rfl

def settledPrice (h : Histogram) (r : Router) (placed : Placed) : Nat :=
  (h.pairs.map fun x => between r (spot placed x.1) (spot placed x.2)).sum

theorem settledPrice_replicate (h : Histogram) (r : Router) (lines : Nat) :
    settledPrice h r (List.replicate lines none) = 0 := by
  simp [settledPrice, spot_replicate]

/-- What one line on a qubit adds to the price: its interactions with the lines placed before. -/
theorem settledPrice_set (hh : h.Proper placed.length) (hline : placed[line]? = some none) :
    settledPrice h r (placed.set line (some q)) = settledPrice h r placed +
      ((settled placed).map fun x => pairPrice h r line x.1 q x.2).sum := by
  have hlt : line < placed.length := (List.getElem?_eq_some_iff.1 hline).1
  have hnone := spot_eq_none hline
  have hentry : ∀ c t, h.count c t *
        between r (spot (placed.set line (some q)) c) (spot (placed.set line (some q)) t) =
      h.count c t * between r (spot placed c) (spot placed t) +
        ((if c = line then h.count line t * between r (some q) (spot placed t) else 0) +
          (if t = line then h.count c line * between r (spot placed c) (some q) else 0)) := by
    intro c t
    rw [spot_set hlt, spot_set hlt]
    by_cases hc : c = line
    · by_cases ht : t = line
      · simp [hc, ht, hnone, hh.count_self]
      · simp [hc, ht, hnone]
    · by_cases ht : t = line
      · simp [hc, ht, hnone]
      · simp [hc, ht]
  have hcross : ∀ k, h.count line k * between r (some q) (spot placed k) +
      h.count k line * between r (spot placed k) (some q) =
        (spot placed k).elim 0 (pairPrice h r line k q) := by
    intro k
    cases spot placed k <;> simp [between, pairPrice]
  have hafter := h.sum_rows hh.below fun c t =>
    between r (spot (placed.set line (some q)) c) (spot (placed.set line (some q)) t)
  have hbefore := h.sum_rows hh.below fun c t => between r (spot placed c) (spot placed t)
  rw [settledPrice, settledPrice, hafter, hbefore, sum_settled placed fun k p =>
    pairPrice h r line k q p]
  simp only [hentry, ← hcross]
  rw [← Histogram.sum_cross hlt]
  simp only [Finset.sum_add_distrib]

section Words

variable (hprice : ∀ v w, r.price v w < wordBound)
include hprice

theorem between_le (s s' : Option Qubit) : between r s s' ≤ wordBound - 1 := by
  cases s with
  | none => exact Nat.zero_le _
  | some p =>
    cases s' with
    | none => exact Nat.zero_le _
    | some q => exact Nat.le_pred_of_lt (hprice p q)

/-- Fewer counts than words, each at the price of a word, do not reach the largest estimate. -/
theorem settledPrice_le (hh : h.Proper lines) (placed : Placed) :
    settledPrice h r placed ≤ maxEstimate := by
  have hle : settledPrice h r placed ≤ h.total * (wordBound - 1) := by
    have hall := List.sum_le_card_nsmul
      (h.pairs.map fun x => between r (spot placed x.1) (spot placed x.2)) (wordBound - 1)
      (List.forall_mem_map.2 fun x _ => between_le hprice _ _)
    rwa [List.length_map, smul_eq_mul] at hall
  have hmost : h.total * (wordBound - 1) ≤ (wordBound - 1) * (wordBound - 1) :=
    Nat.mul_le_mul_right _ (Nat.le_pred_of_lt hh.few)
  exact hle.trans (hmost.trans (by decide))

/-- An increment is the sum of its parts, and the price grows by it. -/
theorem settledPrice_place (hh : h.Proper placed.length) (hline : placed[line]? = some none) :
    settledPrice h r (placed.set line (some q)) =
      settledPrice h r placed + increment h r (settled placed) line q := by
  have hset := settledPrice_set (r := r) (q := q) hh hline
  have hle := settledPrice_le hprice hh (placed.set line (some q))
  have hsum := foldl_saturating (fun x : Qubit × Qubit => pairPrice h r line x.1 q x.2)
    (settled placed) (Nat.zero_le maxEstimate)
  have hincrement : increment h r (settled placed) line q = _ := hsum
  omega

end Words

theorem settledPrice_pair {a b : Nat} (hh : h.Proper lines) (hab : a < b) (hb : b < lines) :
    settledPrice h r (((List.replicate lines none).set a (some p)).set b (some q)) =
      pairPrice h r a b p q := by
  have hlen : (List.replicate lines (none : Option Qubit)).length = lines := List.length_replicate
  have hfirst : (List.replicate lines (none : Option Qubit))[a]? = some none := by
    rw [List.getElem?_replicate, if_pos (hab.trans hb)]
  have hsecond : ((List.replicate lines (none : Option Qubit)).set a (some p))[b]? =
      some none := by
    rw [List.getElem?_set_ne hab.ne, List.getElem?_replicate, if_pos hb]
  have hspots : ∀ k, spot ((List.replicate lines (none : Option Qubit)).set a (some p)) k =
      if k = a then some p else none := by
    intro k
    rw [spot_set (by rw [hlen]; exact hab.trans hb), spot_replicate]
  rw [settledPrice_set (by rwa [List.length_set, hlen]) hsecond,
    settledPrice_set (by rwa [hlen]) hfirst, settledPrice_replicate,
    sum_settled _ fun k s => pairPrice h r a k p s, sum_settled _ fun k s => pairPrice h r b k q s,
    List.length_set, hlen]
  have hsingle : ∑ k ∈ Finset.range lines, (if k = a then some p else none).elim 0
      (pairPrice h r b k q) = pairPrice h r b a q p := by
    refine (Finset.sum_eq_single_of_mem a (Finset.mem_range.2 (hab.trans hb)) ?_).trans ?_
    · intro k _ hk
      rw [if_neg hk, Option.elim_none]
    · rw [if_pos rfl, Option.elim_some]
  simp only [hspots, spot_replicate, hsingle, Option.elim_none, Finset.sum_const_zero, Nat.zero_add]
  exact Nat.add_comm _ _

/-- All lines placed, the price is the estimate of the layout. -/
theorem estimate_eq_settledPrice (hprice : ∀ v w, r.price v w < wordBound)
    {images : List Qubit} (hh : h.Proper images.length) :
    (Layout.mk images).estimate h r = settledPrice h r (images.map some) := by
  have hspot : ∀ k, spot (images.map some) k = images[k]? := by
    intro k
    rw [spot, List.getElem?_map]
    cases images[k]? <;> rfl
  have hprices : ∀ i ∈ h.interactions, (Layout.mk images).interactionPrice r i =
      i.2.2 * between r (spot (images.map some) i.1) (spot (images.map some) i.2.1) := by
    rintro ⟨c, t, n⟩ hmem
    obtain ⟨hpair, -⟩ := (Histogram.mem_interactions hh.inside).1 hmem
    obtain ⟨hc, ht⟩ := hh.below _ hpair
    simp only [Layout.interactionPrice, Layout.physical?, hspot, List.getElem?_eq_getElem hc,
      List.getElem?_eq_getElem ht, between]
  have hsum := Histogram.sum_interactions hh.inside fun x =>
    between r (spot (images.map some) x.1) (spot (images.map some) x.2)
  rw [Layout.estimate, Layout.estimateOf, foldl_saturating _ _ (Nat.zero_le _), Nat.zero_add,
    List.map_congr_left hprices, hsum]
  exact Nat.min_eq_right (settledPrice_le hprice hh _)

end Price

section Width

/-- All sums of counts are words and all prices of two lines are longs, whichever are placed. -/
structure KeepsWidth (h : Histogram) (r : Router) (lines : Nat) : Prop where
  weight : ∀ a < lines, ∀ b < lines, h.weight a b < wordBound
  settledWeight : ∀ placed : Placed, placed.length = lines → ∀ line < lines,
    settledWeight h (settled placed) line < wordBound
  pairPrice : ∀ a < lines, ∀ b < lines, ∀ p q, a ≠ b → pairPrice h r a b p q < longBound

theorem settledWeight_eq (h : Histogram) (others : List (Qubit × Qubit)) (line : Nat) :
    settledWeight h others line = (others.map fun x => h.weight line x.1).sum := by
  rw [List.sum_eq_foldl, List.foldl_map]
  rfl

theorem settledWeight_le (hh : h.Proper placed.length) (hline : line < placed.length) :
    settledWeight h (settled placed) line ≤ h.total := by
  rw [settledWeight_eq, sum_settled placed fun k _ => h.weight line k]
  refine (Finset.sum_le_sum fun k _ => ?_).trans (hh.sum_weight_le hline)
  cases spot placed k with
  | none => exact Nat.zero_le _
  | some p => exact Nat.le_refl _

theorem keepsWidth (hh : h.Proper lines) (hprice : ∀ v w, r.price v w < wordBound) :
    KeepsWidth h r lines where
  weight a ha b hb := Nat.lt_of_le_of_lt (hh.weight_le ha hb) hh.few
  settledWeight := by
    rintro placed rfl line hline
    exact Nat.lt_of_le_of_lt (settledWeight_le hh hline) hh.few
  pairPrice := by
    intro a ha b hb p q hab
    have hword : ∀ v w, r.price v w ≤ wordBound - 1 :=
      fun v w => Nat.le_pred_of_lt (hprice v w)
    have hweight : h.weight a b ≤ wordBound - 1 :=
      Nat.le_pred_of_lt (Nat.lt_of_le_of_lt (hh.weight_le ha hb) hh.few)
    calc pairPrice h r a b p q
        ≤ h.count a b * (wordBound - 1) + h.count b a * (wordBound - 1) :=
          Nat.add_le_add (Nat.mul_le_mul_left _ (hword p q)) (Nat.mul_le_mul_left _ (hword q p))
      _ = h.weight a b * (wordBound - 1) := (Nat.add_mul _ _ _).symm
      _ ≤ (wordBound - 1) * (wordBound - 1) := Nat.mul_le_mul_right _ hweight
      _ < longBound := by decide

end Width

section Growth

/-- How the first lines are placed, and at what price: the heaviest pair of lines on the cheapest
pair of qubits, or no lines where none interact. -/
inductive Opens (h : Histogram) (r : Router) (lines : Nat) : Placed → Nat → Prop where
  | idle (idle : ∀ a < lines, ∀ b < lines, h.weight a b = 0) :
      Opens h r lines (List.replicate lines none) 0
  | pair {a b p q : Nat} (ascending : a < b) (last : b < lines)
      (heaviest : ∀ a' < lines, ∀ b' < lines, h.weight a' b' ≤ h.weight a b)
      (inside : p < r.size ∧ q < r.size ∧ p ≠ q)
      (cheapest : ∀ p' < r.size, ∀ q' < r.size, p' ≠ q' →
        pairPrice h r a b p q ≤ pairPrice h r a b p' q') :
      Opens h r lines (((List.replicate lines none).set a (some p)).set b (some q))
        (pairPrice h r a b p q)

structure Places (h : Histogram) (r : Router) (placed : Placed) (line q : Qubit) : Prop where
  waits : placed[line]? = some none
  heaviest : ∀ k, placed[k]? = some none →
    settledWeight h (settled placed) k ≤ settledWeight h (settled placed) line
  inside : q < r.size
  free : some q ∉ placed
  least : ∀ p < r.size, some p ∉ placed →
    increment h r (settled placed) line q ≤ increment h r (settled placed) line p

inductive Grows (h : Histogram) (r : Router) (opening : Placed) : List Nat → Placed → Prop where
  | opened : Grows h r opening [] opening
  | place {increments : List Nat} {placed : Placed} {line q : Qubit}
      (grown : Grows h r opening increments placed) (places : Places h r placed line q) :
      Grows h r opening (increments ++ [increment h r (settled placed) line q])
        (placed.set line (some q))

theorem Grows.price {increments : List Nat} (hg : Grows h r opening increments placed)
    (hh : h.Proper opening.length) (hprice : ∀ v w, r.price v w < wordBound) :
    placed.length = opening.length ∧
      settledPrice h r placed = settledPrice h r opening + increments.sum := by
  induction hg with
  | opened => simp
  | place grown places ih =>
    obtain ⟨hlength, hsum⟩ := ih
    rw [List.length_set, settledPrice_place hprice (by rwa [hlength]) places.waits, hsum,
      List.sum_append, List.sum_singleton, Nat.add_assoc]
    exact ⟨hlength, rfl⟩

theorem Opens.price {cost : Nat} (ho : Opens h r lines opening cost) (hh : h.Proper lines) :
    opening.length = lines ∧ settledPrice h r opening = cost := by
  cases ho with
  | idle => exact ⟨List.length_replicate, settledPrice_replicate h r lines⟩
  | pair ascending last => exact ⟨by simp, settledPrice_pair hh ascending last⟩

theorem opens_start (hh : h.Proper lines) (hl : lines ≤ r.size) :
    ∃ cost, Opens h r lines (start h r lines) cost := by
  have hself : ∀ a, h.weight a a = 0 := fun a => by rw [Histogram.weight, hh.count_self]
  unfold start
  cases hpair : heaviestPair h lines with
  | none =>
    refine ⟨0, .idle fun a ha b hb => ?_⟩
    by_cases hab : a = b
    · rw [hab, hself]
    · exact weight_eq_zero_of_no_pair hpair ha hb hab
  | some pair =>
    obtain ⟨a, b⟩ := pair
    obtain ⟨hab, hb⟩ := mem_heaviestPair hpair
    have htwo : 1 < r.size := (Nat.lt_of_le_of_lt (Nat.zero_lt_of_lt hab) hb).trans_le hl
    obtain ⟨p, q, hspots⟩ := exists_cheapestPair (h := h) (a := a) (b := b) htwo
    simp only [hspots]
    refine ⟨_, .pair hab hb (fun a' ha' b' hb' => ?_) (mem_cheapestPair hspots) ?_⟩
    · by_cases hne : a' = b'
      · rw [hne, hself]
        exact Nat.zero_le _
      · exact weight_le_heaviestPair hpair ha' hb' hne
    · exact fun p' hp' q' hq' hne => cheapestPair_le hspots hp' hq' hne

theorem places_of_next (hline : nextLine h placed = some line)
    (hq : nextSpot h r placed line = some q) : Places h r placed line q := by
  rw [nextLine, firstMax_eq_argmax] at hline
  rw [nextSpot, firstMin_eq_argmin] at hq
  obtain ⟨hsize, hfree⟩ := mem_free.1 (List.argmin_mem hq)
  refine ⟨mem_waiting.1 (List.argmax_mem hline), ?_, hsize, mt mem_taken.2 hfree, ?_⟩
  · exact fun k hk => List.le_of_mem_argmax (mem_waiting.2 hk) hline
  · exact fun p hp hno => List.le_of_mem_argmin (mem_free.2 ⟨hp, mt mem_taken.1 hno⟩) hq

theorem grows_rounds (h : Histogram) (r : Router) (lines count : Nat) :
    ∃ increments, Grows h r (start h r lines) increments (rounds h r lines count) := by
  induction count with
  | zero => exact ⟨[], .opened⟩
  | succ count ih =>
    obtain ⟨increments, hg⟩ := ih
    rw [rounds_succ, grow]
    cases hline : nextLine h (rounds h r lines count) with
    | none => exact ⟨increments, hg⟩
    | some line =>
      cases hq : nextSpot h r (rounds h r lines count) line with
      | none =>
        simp only [hq]
        exact ⟨increments, hg⟩
      | some q =>
        simp only [hq]
        exact ⟨_, hg.place (places_of_next hline hq)⟩

/-- The search for a next line ends once all lines are placed. -/
theorem nextLine_eq_none (hall : ∀ line : Nat, placed[line]? ≠ some none) :
    nextLine h placed = none := by
  have hnil : waiting placed = [] :=
    List.eq_nil_iff_forall_not_mem.2 fun line hline => hall line (mem_waiting.1 hline)
  rw [nextLine, hnil]
  rfl

/-- Where as many qubits are taken as there are lines, no line was left out, and the images are in
the order of the lines. -/
theorem eq_map_taken (hall : (taken placed).length = placed.length) :
    placed = (taken placed).map some := by
  induction placed with
  | nil => rfl
  | cons spot rest ih =>
    have hle : (taken rest).length ≤ rest.length := List.length_filterMap_le _ _
    cases spot with
    | none =>
      have hskip : taken (none :: rest) = taken rest := rfl
      rw [hskip, List.length_cons] at hall
      omega
    | some q =>
      have htake : taken (some q :: rest) = q :: taken rest := rfl
      rw [htake, List.length_cons, List.length_cons] at hall
      rw [htake, List.map_cons, ← ih (Nat.succ.inj hall)]

end Growth

end Greedy

/-- The greedy layout of fewer counts than words, over a router that charges words and has a qubit
for every line. Nothing overflows, the rounds end with all lines placed, on different qubits, and
the estimate is the price of the first pair with the increments that were paid for the other lines,
each of them the least of all free qubits. -/
theorem greedyLayout_grows {h : Histogram} {r : Router} {lines : Nat} (hh : h.Proper lines)
    (hprice : ∀ v w, r.price v w < wordBound) (hl : lines ≤ r.size) :
    Greedy.KeepsWidth h r lines ∧
    (greedyLayout h r lines).Injects lines r.size ∧
    Layout.make (greedyLayout h r lines).images r.size = .ok (greedyLayout h r lines) ∧
    ∃ opening cost increments, Greedy.Opens h r lines opening cost ∧
      Greedy.Grows h r opening increments ((greedyLayout h r lines).images.map some) ∧
      Greedy.nextLine h ((greedyLayout h r lines).images.map some) = none ∧
      (greedyLayout h r lines).estimate h r = cost + increments.sum := by
  have hinjects := injects_greedyLayout h r hl
  obtain ⟨cost, hopens⟩ := Greedy.opens_start hh hl
  obtain ⟨increments, hgrows⟩ := Greedy.grows_rounds h r lines (min lines r.size)
  have hfinal : Greedy.rounds h r lines (min lines r.size) =
      (greedyLayout h r lines).images.map some := by
    refine Greedy.eq_map_taken ?_
    rw [Greedy.length_taken_rounds h r hl, (Greedy.sound_rounds h r hl _).1.length]
  rw [hfinal] at hgrows
  obtain ⟨hlength, hopening⟩ := hopens.price hh
  obtain ⟨-, hsum⟩ := hgrows.price (by rwa [hlength]) hprice
  refine ⟨Greedy.keepsWidth hh hprice, hinjects, hinjects.make_eq_ok, _, cost, increments, hopens,
    hgrows, Greedy.nextLine_eq_none fun line => ?_, ?_⟩
  · rw [List.getElem?_map]
    cases (greedyLayout h r lines).images[line]? <;> simp
  rw [Greedy.estimate_eq_settledPrice hprice (by rwa [hinjects.length]), hsum, hopening]

def fewCounts : Histogram := ⟨3, [(0, 1), (0, 1), (2, 1)]⟩

/-- On a row of four qubits. -/
theorem greedyLayout_on_row : ∃ t, RoutingTable.build (.row 4) none = .ok t ∧
    fewCounts.Proper 4 ∧ (greedyLayout fewCounts t.router 4).Injects 4 t.router.size ∧
    ∃ opening cost increments, Greedy.Opens fewCounts t.router 4 opening cost ∧
      Greedy.Grows fewCounts t.router opening increments
        ((greedyLayout fewCounts t.router 4).images.map some) ∧
      (greedyLayout fewCounts t.router 4).estimate fewCounts t.router =
        cost + increments.sum := by
  obtain ⟨t, ht⟩ := RoutingTable.exists_build_long_row
  have hsize : t.router.size = 4 := congrArg Graph.size (RoutingTable.build_graph ht)
  have hproper : fewCounts.Proper 4 := by decide
  obtain ⟨-, hinjects, -, opening, cost, increments, hopens, hgrows, -, hestimate⟩ :=
    greedyLayout_grows hproper (RoutingTable.price_lt ht) (Nat.le_of_eq hsize.symm)
  exact ⟨t, ht, hproper, hinjects, opening, cost, increments, hopens, hgrows, hestimate⟩

end QubitRouting
