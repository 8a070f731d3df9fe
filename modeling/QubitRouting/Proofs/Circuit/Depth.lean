import Mathlib.Data.List.Chain
import Mathlib.Order.Bounds.Basic
import QubitRouting.Circuit.Basic
import QubitRouting.Proofs.Cancellation.Adjacent
import QubitRouting.Proofs.Routing.Replacement
import QubitRouting.Proofs.Simulation.Inverse

/-!
Depth as the longest chain of gates that have to wait for one another. A gate comes one level after
the latest gate on any of its lines, so the level of a line is the length of the longest chain that
ends on it, whatever the order in which gates without a common line are scheduled.
-/

namespace QubitRouting

structure Linked (gates chain : List Gate) : Prop where
  sublist : chain.Sublist gates
  waits : chain.IsChain fun g h => g.touches h = true

def chainLengths (gates : List Gate) (ends : Gate → Prop) : Set Nat :=
  {k | ∃ chain, Linked gates chain ∧ (∀ g ∈ chain.getLast?, ends g) ∧ chain.length = k}

section Chains

variable {gates hs chain : List Gate} {g : Gate} {ends : Gate → Prop}

/-- A chain may go on to one more gate when its last gate shares a line with that one. -/
theorem linked_concat_iff : Linked (gates ++ [g]) chain ↔ Linked gates chain ∨
    ∃ front, chain = front ++ [g] ∧ Linked gates front ∧
      ∀ p ∈ front.getLast?, p.touches g = true := by
  constructor
  · rintro ⟨hsub, hwaits⟩
    obtain ⟨front, back, rfl, hfront, hback⟩ := List.sublist_append_iff.1 hsub
    rcases List.sublist_singleton.1 hback with rfl | rfl
    · rw [List.append_nil] at hwaits ⊢
      exact .inl ⟨hfront, hwaits⟩
    · obtain ⟨hwaits, -, hlast⟩ := List.isChain_append.1 hwaits
      exact .inr ⟨front, rfl, ⟨hfront, hwaits⟩, fun p hp => hlast p hp g rfl⟩
  · rintro (h | ⟨front, rfl, h, hlast⟩)
    · exact ⟨h.sublist.trans (List.sublist_append_left _ _), h.waits⟩
    · refine ⟨h.sublist.append (List.Sublist.refl _), h.waits.append (.singleton g) ?_⟩
      rintro p hp _ ⟨⟩
      exact hlast p hp

/-- A chain goes on to one more gate, or does without it. -/
theorem chainLengths_concat_of_ends (h : ends g) : chainLengths (gates ++ [g]) ends =
    chainLengths gates ends ∪ Nat.succ '' chainLengths gates (·.touches g = true) := by
  ext k
  constructor
  · rintro ⟨chain, hlinked, hends, rfl⟩
    rcases linked_concat_iff.1 hlinked with hlinked | ⟨front, rfl, hfront, hlast⟩
    · exact .inl ⟨chain, hlinked, hends, rfl⟩
    · exact .inr ⟨front.length, ⟨front, hfront, hlast, rfl⟩, by simp⟩
  · rintro (⟨chain, hlinked, hends, rfl⟩ | ⟨_, ⟨front, hfront, hlast, rfl⟩, rfl⟩)
    · exact ⟨chain, linked_concat_iff.2 (.inl hlinked), hends, rfl⟩
    · refine ⟨front ++ [g], linked_concat_iff.2 (.inr ⟨front, rfl, hfront, hlast⟩), ?_,
        List.length_append⟩
      simpa using h

theorem chainLengths_concat_of_not_ends (h : ¬ ends g) :
    chainLengths (gates ++ [g]) ends = chainLengths gates ends := by
  ext k
  constructor
  · rintro ⟨chain, hlinked, hends, rfl⟩
    rcases linked_concat_iff.1 hlinked with hlinked | ⟨front, rfl, -, -⟩
    · exact ⟨chain, hlinked, hends, rfl⟩
    · exact absurd (hends g (by simp)) h
  · rintro ⟨chain, hlinked, hends, rfl⟩
    exact ⟨chain, linked_concat_iff.2 (.inl hlinked), hends, rfl⟩

theorem isGreatest_chainLengths_nil : IsGreatest (chainLengths [] ends) 0 := by
  refine ⟨⟨[], ⟨List.Sublist.refl _, .nil⟩, by simp, rfl⟩, ?_⟩
  rintro _ ⟨chain, hlinked, -, rfl⟩
  rw [List.sublist_nil.1 hlinked.sublist, List.length_nil]

/-- Of two neighbours without a common line at most one is in a chain. -/
theorem Linked.exchange (h : Exchange gates hs) (hlinked : Linked gates chain) :
    Linked hs chain := by
  obtain ⟨before, after, hapart⟩ := h
  rename_i x y
  refine ⟨?_, hlinked.waits⟩
  obtain ⟨front, rest, rfl, hfront, hrest⟩ := List.sublist_append_iff.1 hlinked.sublist
  refine hfront.append ?_
  cases hrest with
  | cons _ hrest =>
    cases hrest with
    | cons _ hrest => exact (hrest.cons x).cons y
    | cons_cons _ hrest => exact (hrest.cons x).cons_cons y
  | cons_cons _ hrest =>
    cases hrest with
    | cons _ hrest => exact (hrest.cons_cons x).cons y
    | cons_cons _ _ =>
      have htouch := (List.isChain_append_cons_cons.1 hlinked.waits).2.1
      rw [hapart] at htouch
      cases htouch

theorem chainLengths_shuffle (h : Shuffle gates hs) (ends : Gate → Prop) :
    chainLengths hs ends = chainLengths gates ends := by
  induction h with
  | refl => rfl
  | tail _ step ih =>
    rw [← ih]
    ext k
    constructor
    · rintro ⟨chain, hlinked, hk⟩
      exact ⟨chain, hlinked.exchange step.symm, hk⟩
    · rintro ⟨chain, hlinked, hk⟩
      exact ⟨chain, hlinked.exchange step, hk⟩

theorem Linked.reverse (h : Linked gates chain) : Linked gates.reverse chain.reverse := by
  refine ⟨h.sublist.reverse, List.isChain_reverse.2 ?_⟩
  simp only [Gate.touches_comm]
  exact h.waits

theorem chainLengths_reverse (gates : List Gate) :
    chainLengths gates.reverse (fun _ => True) = chainLengths gates fun _ => True := by
  ext k
  constructor
  · rintro ⟨chain, hlinked, -, rfl⟩
    refine ⟨chain.reverse, ?_, fun _ _ => trivial, List.length_reverse⟩
    simpa using hlinked.reverse
  · rintro ⟨chain, hlinked, -, rfl⟩
    exact ⟨chain.reverse, hlinked.reverse, fun _ _ => trivial, List.length_reverse⟩

/-- A chain sees of its gates only which of them share a line. -/
theorem linked_map_iff {F : Gate → Gate}
    (hF : ∀ g ∈ gates, ∀ h ∈ gates, (F g).touches (F h) = g.touches h) :
    Linked (gates.map F) chain ↔ ∃ front, Linked gates front ∧ front.map F = chain := by
  have hwaits : ∀ front : List Gate, front.Sublist gates →
      ((front.map F).IsChain (fun g h => g.touches h = true) ↔
        front.IsChain fun g h => g.touches h = true) := by
    intro front hsub
    rw [List.isChain_map]
    refine List.IsChain.iff_of_mem_imp fun g h hg hh => ?_
    rw [hF g (hsub.subset hg) h (hsub.subset hh)]
  constructor
  · rintro ⟨hsub, hchain⟩
    obtain ⟨front, hfront, rfl⟩ := List.sublist_map_iff.1 hsub
    exact ⟨front, ⟨hfront, (hwaits front hfront).1 hchain⟩, rfl⟩
  · rintro ⟨front, ⟨hfront, hchain⟩, rfl⟩
    exact ⟨hfront.map F, (hwaits front hfront).2 hchain⟩

theorem chainLengths_map {F : Gate → Gate}
    (hF : ∀ g ∈ gates, ∀ h ∈ gates, (F g).touches (F h) = g.touches h) :
    chainLengths (gates.map F) (fun _ => True) = chainLengths gates fun _ => True := by
  ext k
  constructor
  · rintro ⟨_, hlinked, -, rfl⟩
    obtain ⟨front, hfront, rfl⟩ := (linked_map_iff hF).1 hlinked
    exact ⟨front, hfront, fun _ _ => trivial, (List.length_map F).symm⟩
  · rintro ⟨front, hfront, -, rfl⟩
    exact ⟨front.map F, (linked_map_iff hF).2 ⟨front, hfront, rfl⟩, fun _ _ => trivial,
      List.length_map F⟩

end Chains

namespace Circuit

section Scheduling

theorem foldl_max_spec (f : Qubit → Nat) (lines : List Qubit) (start : Nat) :
    let top := lines.foldl (fun m q => max m (f q)) start
    (start ≤ top ∧ ∀ q ∈ lines, f q ≤ top) ∧ (top = start ∨ ∃ q ∈ lines, f q = top) := by
  induction lines generalizing start with
  | nil => simp
  | cons q lines ih =>
    obtain ⟨⟨hstart, hlines⟩, htop⟩ := ih (max start (f q))
    simp only [List.foldl_cons, List.forall_mem_cons, List.exists_mem_cons_iff]
    generalize lines.foldl (fun m q => max m (f q)) (max start (f q)) = top at *
    refine ⟨⟨by omega, by omega, hlines⟩, ?_⟩
    rcases htop with htop | htop
    · omega
    · exact .inr (.inr htop)

theorem getD_raise (levels : Levels) (level : Nat) (lines : List Qubit) (q : Qubit) :
    (levels.raise level lines).getD q 0 = if q ∈ lines then level else levels.getD q 0 := by
  induction lines generalizing levels with
  | nil => rfl
  | cons l lines ih =>
    rw [Levels.raise, List.foldl_cons, ← Levels.raise, ih, Std.HashMap.getD_insert]
    by_cases hq : q ∈ lines
    · simp [hq]
    · have hswap : q = l ↔ l = q := eq_comm
      simp [hq, hswap]

/-- What has been scheduled: the level of a line is the length of the longest chain that ends on it,
and the depth that of the longest chain there is. -/
structure Scheduled (gates : List Gate) (s : Levels × Nat) : Prop where
  level : ∀ q, IsGreatest (chainLengths gates (q ∈ ·.lines)) (s.1.getD q 0)
  depth : IsGreatest (chainLengths gates fun _ => True) s.2

variable {gates : List Gate} {s : Levels × Nat} {g : Gate} {c : Circuit}

theorem Scheduled.next (h : Scheduled gates s) (g : Gate) :
    IsGreatest (Nat.succ '' chainLengths gates (·.touches g = true)) (s.1.next g.lines) := by
  obtain ⟨⟨-, hlines⟩, htop⟩ := foldl_max_spec (fun q => s.1.getD q 0) g.lines 0
  unfold Levels.next
  generalize g.lines.foldl (fun m q => max m (s.1.getD q 0)) 0 = top at *
  constructor
  · refine ⟨top, ?_, rfl⟩
    rcases htop with rfl | ⟨q, hq, rfl⟩
    · exact ⟨[], ⟨List.nil_sublist _, .nil⟩, by simp, rfl⟩
    · obtain ⟨chain, hlinked, hends, hlength⟩ := (h.level q).1
      refine ⟨chain, hlinked, fun p hp => ?_, hlength⟩
      exact Gate.touches_eq_true_iff.2 ⟨q, hends p hp, hq⟩
  · rintro _ ⟨_, ⟨chain, hlinked, hends, rfl⟩, rfl⟩
    refine Nat.succ_le_succ ?_
    cases hlast : chain.getLast? with
    | none =>
      rw [List.getLast?_eq_none_iff.1 hlast]
      exact Nat.zero_le _
    | some p =>
      obtain ⟨q, hp, hq⟩ := Gate.touches_eq_true_iff.1 (hends p hlast)
      refine le_trans ((h.level q).2 ⟨chain, hlinked, fun p' hp' => ?_, rfl⟩) (hlines q hq)
      obtain rfl : p = p' := Option.some.inj (hlast.symm.trans hp')
      exact hp

theorem Scheduled.step (h : Scheduled gates s) (g : Gate) :
    Scheduled (gates ++ [g]) (schedule s g) := by
  have hnext := h.next g
  constructor
  · intro q
    rw [schedule, getD_raise]
    split_ifs with hq
    · have hlevel : s.1.getD q 0 ≤ s.1.next g.lines := by
        have hle := (foldl_max_spec (fun q => s.1.getD q 0) g.lines 0).1.2 q hq
        exact Nat.le_succ_of_le hle
      have hunion := (h.level q).union hnext
      rw [max_eq_right hlevel] at hunion
      rw [chainLengths_concat_of_ends hq]
      exact hunion
    · rw [chainLengths_concat_of_not_ends hq]
      exact h.level q
  · rw [chainLengths_concat_of_ends trivial]
    exact h.depth.union hnext

theorem scheduled_foldl (gates : List Gate) : Scheduled gates (gates.foldl schedule (∅, 0)) := by
  induction gates using List.reverseRecOn with
  | nil =>
    refine ⟨fun q => ?_, isGreatest_chainLengths_nil⟩
    rw [List.foldl_nil, Std.HashMap.getD_empty]
    exact isGreatest_chainLengths_nil
  | append_singleton gates g ih =>
    rw [List.foldl_append]
    exact ih.step g

theorem isGreatest_depth (c : Circuit) :
    IsGreatest (chainLengths c.gates fun _ => True) c.depth :=
  (scheduled_foldl c.gates).depth

theorem depth?_of_chainLengths {d : Circuit} (hd : d.Valid)
    (h : chainLengths d.gates (fun _ => True) = chainLengths c.gates fun _ => True) :
    d.depth? = some c.depth := by
  have hdepth := d.isGreatest_depth
  rw [h] at hdepth
  rw [depth?_of_fit hd, hdepth.unique c.isGreatest_depth]

end Scheduling

section Places

variable {c : Circuit}

/-- Places of gates in ascending order, each of these gates sharing a line with the next. -/
structure DependencyChain (c : Circuit) (places : List (Fin c.gates.length)) : Prop where
  ascending : places.Pairwise (· < ·)
  waits : places.IsChain fun i j => c.gates[i].touches c.gates[j] = true

theorem exists_dependencyChain_iff {k : Nat} :
    (∃ places, c.DependencyChain places ∧ places.length = k) ↔
      k ∈ chainLengths c.gates fun _ => True := by
  constructor
  · rintro ⟨places, ⟨hascending, hwaits⟩, rfl⟩
    exact ⟨places.map (c.gates[·]), ⟨List.map_getElem_sublist hascending,
      (List.isChain_map _).2 hwaits⟩, fun _ _ => trivial, List.length_map _⟩
  · rintro ⟨chain, ⟨hsub, hwaits⟩, -, rfl⟩
    obtain ⟨places, rfl, hascending⟩ := List.sublist_eq_map_getElem hsub
    exact ⟨places, ⟨hascending, (List.isChain_map _).1 hwaits⟩, (List.length_map _).symm⟩

/-- The depth of a circuit is the length of its longest dependency chain. So it is at most the
number of gates, it is zero only without any, and it is the same after exchanges of neighbours that
share no line, for the gates in reverse order, and for the circuit that undoes this one. -/
theorem depth_longest_chain (hv : c.Valid) :
    ∃ depth, c.depth? = some depth ∧
      IsGreatest {k | ∃ places, c.DependencyChain places ∧ places.length = k} depth ∧
      depth ≤ c.gateCount ∧ (depth = 0 ↔ c.gates = []) ∧
      (∀ gates, Shuffle c.gates gates → ({ c with gates := gates } : Circuit).depth? = some depth) ∧
      ({ c with gates := c.gates.reverse } : Circuit).depth? = some depth ∧
      c.inverse.depth? = some depth := by
  have hgreatest := c.isGreatest_depth
  refine ⟨c.depth, depth?_of_fit hv, ?_, ?_, ⟨fun hzero => ?_, fun hnone => ?_⟩,
    fun gates hgates => ?_, ?_, ?_⟩
  · simp only [exists_dependencyChain_iff]
    exact hgreatest
  · obtain ⟨chain, hlinked, -, hlength⟩ := hgreatest.1
    rw [← hlength]
    exact hlinked.sublist.length_le
  · rw [List.eq_nil_iff_forall_not_mem]
    intro g hg
    have hone : 1 ≤ c.depth := hgreatest.2
      ⟨[g], ⟨List.singleton_sublist.2 hg, .singleton g⟩, fun _ _ => trivial, rfl⟩
    omega
  · rw [depth, hnone]
    rfl
  · have hmoved : ({ c with gates := gates } : Circuit).Valid :=
      fun g hg => hv g (hgates.perm.mem_iff.2 hg)
    exact depth?_of_chainLengths hmoved (chainLengths_shuffle hgates _)
  · have hturned : ({ c with gates := c.gates.reverse } : Circuit).Valid :=
      fun g hg => hv g (List.mem_reverse.1 hg)
    exact depth?_of_chainLengths hturned (chainLengths_reverse _)
  · have hsame : chainLengths (c.gates.reverse.map Gate.inverse) (fun _ => True) =
        chainLengths c.gates.reverse fun _ => True := chainLengths_map fun _ _ _ _ => rfl
    exact depth?_of_chainLengths (Valid.inverse hv) (hsame.trans (chainLengths_reverse _))

def waiting : Circuit where
  name := "waiting"
  lines := 4
  gates := [.hadamard 0, .hadamard 3, .cnot 0 1, .cnot 2 1]

theorem depth_of_waiting : waiting.Valid ∧ waiting.depth? = some 3 ∧
    IsGreatest {k | ∃ places, waiting.DependencyChain places ∧ places.length = k} 3 := by
  have hv : waiting.Valid := by decide
  have hdepth : waiting.depth? = some 3 := by cbv
  obtain ⟨depth, hd, hgreatest, -⟩ := depth_longest_chain hv
  obtain rfl : depth = 3 := Option.some.inj (hd.symm.trans hdepth)
  exact ⟨hv, hdepth, hgreatest⟩

end Places

end Circuit

end QubitRouting
