import QubitRouting.Proofs.Table.Completeness

/-!
When the numbers of a table stay in their width. No graph of up to thirty-one qubits and no limit
below thirty relays makes a cost leave it; beyond that some graph does. On the detour the only way
from the first qubit to the second leads over thirty others: the search prices the run of control
relays along it, merged, before it knows a cheaper path.
-/

namespace QubitRouting

namespace Graph

/-- A detour from the first qubit to the second over the next thirty; all further qubits are apart
from it. -/
def detour (n : Nat) : Graph :=
  tabulate n fun (c t : Nat) => (c = 0 ∧ t = 2) ∨ (2 ≤ c ∧ c < 31 ∧ t = c + 1) ∨ (c = 31 ∧ t = 1)

section Detour

variable {n : Nat} {limit : Option Nat}

theorem detour_adjacent_iff (hn : 32 ≤ n) {c t : Nat} : (detour n).adjacent c t = true ↔
    (c = 0 ∧ t = 2) ∨ (2 ≤ c ∧ c < 31 ∧ t = c + 1) ∨ (c = 31 ∧ t = 1) := by
  rw [detour, adjacent_tabulate, Bool.and_eq_true, decide_eq_true_eq, decide_eq_true_eq]
  refine and_iff_right_of_imp fun h => (?_ : c < n ∧ t < n ∧ c ≠ t)
  omega

theorem detour_ends (hn : 32 ≤ n) :
    (0 : Nat) ≠ 1 ∧ 0 < (detour n).size ∧ 1 < (detour n).size := by
  rw [detour, size_tabulate]
  omega

def detourPlace (q : Nat) : Nat := if q = 0 then 0 else if q = 1 then 31 else q - 1

theorem detourPlace_of_adjacent (hn : 32 ≤ n) {c t : Nat}
    (h : (detour n).adjacent c t = true) : detourPlace t = detourPlace c + 1 := by
  rw [detour_adjacent_iff hn] at h
  unfold detourPlace
  split_ifs <;> omega

theorem detourPlace_le (hn : 32 ≤ n) {c t : Nat} (w : (detour n).coupling.Walk c t) :
    detourPlace t ≤ detourPlace c + w.length := by
  induction w with
  | nil => exact le_rfl
  | cons hadj w ih =>
    rw [SimpleGraph.Walk.length_cons]
    rcases Bool.or_eq_true_iff.1 hadj with edge | edge
    · have := detourPlace_of_adjacent hn edge
      omega
    · have := detourPlace_of_adjacent hn edge
      omega

theorem detour_walkingCost (hn : 32 ≤ n) {bound : Nat}
    (h : (detour n).walkingCost? limit 0 1 = some bound) : 364 ≤ bound := by
  obtain ⟨d, hd, -, rfl⟩ := walkingCost?_eq_some h
  obtain ⟨-, -, hdist⟩ := distance?_eq_some_iff.1 hd
  obtain ⟨w, hw⟩ := SimpleGraph.exists_walk_of_edist_eq_coe hdist
  have hle := detourPlace_le hn w
  have hends : detourPlace 0 = 0 ∧ detourPlace 1 = 31 := ⟨rfl, rfl⟩
  omega

def detourControl (k : Nat) : Nat := if k = 0 then 0 else k + 1

def detourRelays (k : Nat) : List Move :=
  (List.range k).map fun i => .cab (detourControl i) (i + 2)

def detourState (n k : Nat) : SearchState :=
  ⟨detourControl k, 1, List.range' (k + 2) (n - (k + 2)), detourRelays k⟩

theorem detourRelays_succ (k : Nat) :
    detourRelays (k + 1) = detourRelays k ++ [.cab (detourControl k) (k + 2)] := by
  simp [detourRelays, List.range_succ]

theorem length_detourRelays (k : Nat) : (detourRelays k).length = k := by simp [detourRelays]

theorem searchStart_detour (hn : 32 ≤ n) : (detour n).searchStart 0 1 = detourState n 0 := by
  obtain ⟨m, rfl⟩ := Nat.exists_eq_add_of_le' hn
  have hrange : List.range (m + 32) = 0 :: 1 :: List.range' 2 (m + 30) := by
    rw [List.range_eq_range', List.range'_succ, List.range'_succ]
  have hrest : (List.range' 2 (m + 30)).filter (fun q => q ≠ 0 ∧ q ≠ 1) =
      List.range' 2 (m + 30) := by
    rw [List.filter_eq_self]
    intro q hq
    have := List.mem_range'_1.1 hq
    rw [decide_eq_true_eq]
    omega
  have hstart : (detour (m + 32)).qubits.filter (fun q => q ≠ 0 ∧ q ≠ 1) =
      List.range' 2 (m + 30) := by
    rw [qubits, detour, size_tabulate, hrange, ← hrest]
    simp
  rw [searchStart, hstart]
  rfl

/-- Up to its last qubit the detour is the first way that the search takes. -/
theorem successors_detour (hn : 32 ≤ n) {k : Nat} (hk : k < 30) :
    ∃ rest, (detourState n k).successors (detour n) = detourState n (k + 1) :: rest := by
  have hadj : (detour n).adjacent (detourControl k) (k + 2) = true := by
    rw [detour_adjacent_iff hn, detourControl]
    split_ifs <;> omega
  have hunvisited : List.range' (k + 2) (n - (k + 2)) =
      (k + 2) :: List.range' (k + 1 + 2) (n - (k + 1 + 2)) := by
    rw [show n - (k + 2) = n - (k + 1 + 2) + 1 by omega, List.range'_succ]
  have hnext : detourState n (k + 1) = ⟨k + 2, 1, List.range' (k + 1 + 2) (n - (k + 1 + 2)),
      detourRelays k ++ [.cab (detourControl k) (k + 2)]⟩ := by
    rw [detourState, detourRelays_succ]
    rfl
  rw [SearchState.successors, hnext, detourState, hunvisited, List.flatMap_cons, hops, if_pos hadj]
  simp only [List.cons_append, List.nil_append, List.map_cons, List.erase_cons_head]
  exact ⟨_, rfl⟩

theorem terminal_detour (hn : 32 ≤ n) {k : Nat} (hk : k < 30) :
    (detour n).terminal? (detourControl k) 1 = none := by
  rw [terminal?_eq_none, ← Bool.not_eq_true, coupled, Bool.or_eq_true, detour_adjacent_iff hn,
    detour_adjacent_iff hn, detourControl]
  grind

/-- Thirty merged relays have a cost that fits and a doubled one that does not. -/
theorem complete_detour (ceiling : Option Nat) :
    ((CheapestSoFar.visitor ceiling).complete (detourRelays 30 ++ [.nop 31 1])
      ⟨none, false⟩).overflow = true := by
  rw [CheapestSoFar.visitor_complete]
  decide +kernel

theorem visitFrom_overflow {g : Graph} {ceiling : Option Nat} (s : SearchState)
    {x : CheapestSoFar} (h : x.overflow = true) :
    (g.visitFrom limit (CheapestSoFar.visitor ceiling) s x).overflow = true := by
  refine visitor_preserves (P := fun x => x.overflow = true) s (fun _ _ q _ x hx => ?_) h
  rw [CheapestSoFar.offer, if_pos hx, hx]

theorem admits_detour {ceiling : Option Nat} (hceiling : ∀ bound ∈ ceiling, 364 ≤ bound) {k : Nat}
    (hk : k ≤ 30) : CheapestSoFar.admits ceiling (detourRelays k) ⟨none, false⟩ = true := by
  have hle := lowerBound_le_relays (detourRelays k)
  rw [length_detourRelays] at hle
  cases ceiling with
  | none => rfl
  | some bound =>
    have := hceiling bound rfl
    simp only [CheapestSoFar.admits, Bool.false_eq_true, if_false, decide_eq_true_eq]
    omega

theorem visitFrom_detour (hn : 32 ≤ n) (hlimit : ∀ k ∈ limit, 30 ≤ k) {ceiling : Option Nat}
    (hceiling : ∀ bound ∈ ceiling, 364 ≤ bound) {k : Nat} (hk : k ≤ 30) :
    ((detour n).visitFrom limit (CheapestSoFar.visitor ceiling) (detourState n k)
      ⟨none, false⟩).overflow = true := by
  have hadmit := admits_detour hceiling hk
  -- The induction is on the relays that are still to come.
  induction hk using Nat.decreasingInduction with
  | self =>
    have hlast : (detour n).terminal? 31 1 = some (.nop 31 1) := by
      rw [terminal?, if_pos ((detour_adjacent_iff hn).2 (by omega))]
    rw [visitFrom_of_terminal _ hadmit hlast]
    exact complete_detour ceiling
  | of_succ k hk ih =>
    have hopen : exhausted limit (detourRelays k) = false := by
      rw [exhausted_eq_false_iff, length_detourRelays]
      exact fun j hj => hk.trans_le (hlimit j hj)
    obtain ⟨rest, hnext⟩ := successors_detour hn hk
    rw [visitFrom_of_open _ hadmit (terminal_detour hn hk) hopen, hnext, List.foldl_cons]
    refine List.foldlRecOn (motive := fun x : CheapestSoFar => x.overflow = true) _ _ ?_
      fun x hx s _ => visitFrom_overflow s hx
    exact ih (admits_detour hceiling hk)

theorem cheapest_detour (hn : 32 ≤ n) (hlimit : ∀ k ∈ limit, 30 ≤ k) :
    (detour n).cheapest limit 0 1 = .error (.defect .overflow) := by
  rw [cheapest_overflow_iff, visit, if_pos (detour_ends hn), searchStart_detour hn]
  exact visitFrom_detour hn hlimit (fun _ => detour_walkingCost hn) (Nat.zero_le 30)

end Detour

end Graph

namespace RoutingTable

open QubitRouting.Graph

variable {g : Graph} {limit : Option Nat}

theorem build_detour_overflow {n : Nat} (hn : 32 ≤ n) (hlimit : ∀ k ∈ limit, 30 ≤ k) :
    build (detour n) limit = .error (.defect .overflow) := by
  obtain ⟨hne, hfirst, hsecond⟩ := detour_ends hn
  have hmem : (0, 1) ∈ orderedPairs (detour n).size := mem_orderedPairs.2 ⟨hfirst, hsecond, hne⟩
  obtain ⟨before, after, hsplit⟩ := List.append_of_mem hmem
  have hnone : (detour n).adjacent 0 1 = false := by
    rw [← Bool.not_eq_true, detour_adjacent_iff hn]
    omega
  refine build_error hsplit ?_ (entryOf_of_error hnone (cheapest_detour hn hlimit))
  rintro ⟨v, w⟩ hq
  obtain ⟨hpair, hlt | ⟨rfl, hlt⟩⟩ := (mem_of_split hsplit).1 hq
  · exact absurd hlt (Nat.not_lt_zero v)
  · obtain rfl := Nat.lt_one_iff.1 hlt
    exact absurd rfl (mem_orderedPairs.1 hpair).2.2

/-- A build ends with a table or with a pair out of reach, unless a doubled cost leaves its width.
Only the merging of thirty relays or more makes one leave it. No graph of thirty-one qubits has such
a run, and no limit of twenty-nine relays admits one; beyond these bounds the detour overflows. -/
theorem build_overflow (limit : Option Nat) :
    (∀ g : Graph, g.size ≤ deviceBound →
      (∀ v w, v < g.size → w < g.size → v ≠ w → g.KeepsWidth limit v w) ∧
      (build g limit = .error (.defect .overflow) →
        ∃ v w relays last, relays ++ [last] ∈ g.enumerate limit v w ∧ 30 ≤ cabRun relays) ∧
      (build g limit ≠ .error (.defect .overflow) →
        (∃ t, build g limit = .ok t) ∨ ∃ v w, build g limit = .error (.unreachable v w))) ∧
    (∀ n ≤ deviceBound, (∀ g : Graph, g.size = n → build g limit ≠ .error (.defect .overflow)) ↔
      n ≤ 31 ∨ ∃ k ∈ limit, k ≤ 29) ∧
    ∀ n, 32 ≤ n → (∀ k ∈ limit, 30 ≤ k) →
      build (detour n) limit = .error (.defect .overflow) := by
  refine ⟨fun g hsize => ⟨?_, ?_, ?_⟩, fun n hn => ⟨?_, ?_⟩, ?_⟩
  · exact fun v w hv hw hvw => keepsWidth limit hvw hv hw hsize
  · intro ho
    obtain ⟨v, w, hv, hw, hvw, hc⟩ := exists_cheapest_overflow ho
    exact ⟨v, w, exists_run_of_overflow hvw hv hw hsize hc⟩
  · intro hfits
    rcases build_cases hfits with ⟨hok, -⟩ | ⟨v, w, -, herror⟩
    · exact Or.inl hok
    · exact Or.inr ⟨v, w, herror⟩
  · intro hfits
    by_contra hmany
    rw [not_or, Nat.not_le] at hmany
    refine hfits (detour n) rfl (build_detour_overflow hmany.1 fun k hk => ?_)
    exact Nat.lt_of_not_le fun hle => hmany.2 ⟨k, hk, hle⟩
  · rintro hfew g rfl
    exact build_fits_of_few hn hfew
  · exact fun n hn hlimit => build_detour_overflow hn hlimit

/-- On a detour with one qubit apart, the search overflows before it comes to that qubit; with a
limit of twenty-nine relays no number leaves its width. -/
theorem build_detour : build (detour 33) none = .error (.defect .overflow) ∧
    build (detour 33) (some 29) ≠ .error (.defect .overflow) := by
  obtain ⟨-, -, hoverflow⟩ := build_overflow none
  obtain ⟨-, hfits, -⟩ := build_overflow (some 29)
  refine ⟨hoverflow 33 (by decide) nofun, ?_⟩
  exact (hfits 33 (by decide)).2 (Or.inr ⟨29, rfl, le_rfl⟩) (detour 33) rfl

end RoutingTable

end QubitRouting
