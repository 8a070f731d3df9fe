import Mathlib.Data.List.Nodup
import QubitRouting.Proofs.Cancellation.Adjacent

/-!
What a sweep keeps. The pile of a line holds the places of the kept gates on it, so a gate that is
the latest on all lines of another is the first that the other meets on its way back through the
kept gates.
-/

namespace QubitRouting

def cancelWith? (g : Gate) : List Gate → Option (List Gate)
  | [] => none
  | p :: rest =>
    if p.touches g then
      if p.cancels g then some rest else none
    else (cancelWith? g rest).map (p :: ·)

def absorb (kept : List Gate) (g : Gate) : List Gate := (cancelWith? g kept).getD (g :: kept)

def keptGates (gates : List Gate) : List Gate := (gates.foldl absorb []).reverse

theorem cancelWith?_cons_of_apart {g p : Gate} (h : p.touches g = false) (kept : List Gate) :
    cancelWith? g (p :: kept) = (cancelWith? g kept).map (p :: ·) := by
  rw [cancelWith?, if_neg (by simp [h])]

theorem cancelWith?_cons_of_cancels {g p : Gate} (hne : g.lines ≠ []) (hc : p.cancels g = true)
    (kept : List Gate) : cancelWith? g (p :: kept) = some kept := by
  have hl := Gate.lines_of_cancels hc
  rw [cancelWith?, if_pos (Gate.touches_of_lines_eq hl (hl ▸ hne)), if_pos hc]

theorem exists_of_cancelWith? {g : Gate} {kept rest : List Gate}
    (h : cancelWith? g kept = some rest) :
    ∃ before p after, kept = before ++ p :: after ∧ rest = before ++ after ∧
      (∀ x ∈ before, x.touches g = false) ∧ p.cancels g = true := by
  induction kept generalizing rest with
  | nil => cases h
  | cons p kept ih =>
    rw [cancelWith?] at h
    split_ifs at h with ht hc
    · obtain rfl := Option.some.inj h
      exact ⟨[], p, kept, rfl, rfl, by simp, hc⟩
    · obtain ⟨r, hr, rfl⟩ := Option.map_eq_some_iff.1 h
      obtain ⟨before, q, after, rfl, rfl, hbefore, hq⟩ := ih hr
      refine ⟨p :: before, q, after, rfl, rfl, ?_, hq⟩
      exact List.forall_mem_cons.2 ⟨by simpa using ht, hbefore⟩

theorem cancelWith?_append {g p : Gate} {before : List Gate} (after : List Gate)
    (hbefore : ∀ x ∈ before, x.touches g = false) (hne : g.lines ≠ []) (hc : p.cancels g = true) :
    cancelWith? g (before ++ p :: after) = some (before ++ after) := by
  induction before with
  | nil => exact cancelWith?_cons_of_cancels hne hc after
  | cons x before ih =>
    obtain ⟨hx, hrest⟩ := List.forall_mem_cons.1 hbefore
    rw [List.cons_append, cancelWith?_cons_of_apart hx, ih hrest]
    rfl

namespace Sweep

def placedFrom (first : Nat) (spots : List (Option Gate)) : List (Nat × Gate) :=
  (spots.zipIdx first).filterMap fun (spot, place) => spot.map (place, ·)

section Placed

variable {k i : Nat} {g : Gate} {spots : List (Option Gate)}

theorem mem_placedFrom :
    (i, g) ∈ placedFrom k spots ↔ k ≤ i ∧ spots[i - k]? = some (some g) := by
  simp only [placedFrom, List.mem_filterMap, Prod.exists, Option.map_eq_some_iff, Prod.mk.injEq]
  constructor
  · rintro ⟨spot, place, hmem, h, rfl, rfl, rfl⟩
    exact List.mem_zipIdx_iff_le_and_getElem?_sub.1 hmem
  · intro h
    exact ⟨some g, i, List.mem_zipIdx_iff_le_and_getElem?_sub.2 h, g, rfl, rfl, rfl⟩

theorem placedFrom_none (k : Nat) (rest : List (Option Gate)) :
    placedFrom k (none :: rest) = placedFrom (k + 1) rest := rfl

theorem placedFrom_some (k : Nat) (g : Gate) (rest : List (Option Gate)) :
    placedFrom k (some g :: rest) = (k, g) :: placedFrom (k + 1) rest := rfl

theorem placedFrom_concat (k : Nat) (spots : List (Option Gate)) (g : Gate) :
    placedFrom k (spots ++ [some g]) = placedFrom k spots ++ [(k + spots.length, g)] := by
  rw [placedFrom, List.zipIdx_append, List.filterMap_append]
  rfl

theorem nodup_placedFrom (k : Nat) (spots : List (Option Gate)) :
    ((placedFrom k spots).map Prod.fst).Nodup := by
  induction spots generalizing k with
  | nil => exact List.nodup_nil
  | cons spot rest ih =>
    cases spot with
    | none => exact ih (k + 1)
    | some g =>
      rw [placedFrom_some, List.map_cons, List.nodup_cons]
      refine ⟨?_, ih (k + 1)⟩
      intro hmem
      obtain ⟨⟨i, h⟩, hx, hi⟩ := List.mem_map.1 hmem
      have hle := (mem_placedFrom.1 hx).1
      simp only at hi
      omega

theorem placedFrom_set (k i : Nat) (spots : List (Option Gate)) :
    placedFrom k (spots.set i none) = (placedFrom k spots).filter (·.1 ≠ k + i) := by
  induction spots generalizing k i with
  | nil => rfl
  | cons spot rest ih =>
    cases i with
    | zero =>
      have later : (placedFrom (k + 1) rest).filter (·.1 ≠ k) = placedFrom (k + 1) rest := by
        rw [List.filter_eq_self]
        rintro ⟨i, g⟩ hx
        have hle := (mem_placedFrom.1 hx).1
        have hne : i ≠ k := by omega
        simpa using hne
      cases spot with
      | none => exact later.symm
      | some g => simpa [placedFrom_none, placedFrom_some] using later.symm
    | succ i =>
      have hsum : k + 1 + i = k + (i + 1) := by omega
      cases spot with
      | none => simp [placedFrom_none, ih, hsum]
      | some g => simp [placedFrom_some, ih, hsum]

theorem map_snd_placedFrom (k : Nat) (spots : List (Option Gate)) :
    (placedFrom k spots).map Prod.snd = spots.filterMap id := by
  induction spots generalizing k with
  | nil => rfl
  | cons spot rest ih =>
    cases spot with
    | none => exact ih (k + 1)
    | some g => simp [placedFrom_some, ih]

end Placed

def kept (s : Sweep) : List (Nat × Gate) := (placedFrom 0 s.gates.toList).reverse

def placesOn (kept : List (Nat × Gate)) (q : Qubit) : List Nat :=
  (kept.filter (q ∈ ·.2.lines)).map Prod.fst

structure Invariant (n : Nat) (s : Sweep) : Prop where
  piles : ∀ q < n, s.piles[q]? = some (placesOn s.kept q)
  fits : ∀ x ∈ s.kept, x.2.Fits n

section Kept

variable {s : Sweep} {place : Nat} {g : Gate}

theorem mem_kept : (place, g) ∈ s.kept ↔ s.gates[place]? = some (some g) := by
  rw [kept, List.mem_reverse, mem_placedFrom]
  simp

theorem nodup_kept (s : Sweep) : (s.kept.map Prod.fst).Nodup := by
  rw [kept, List.map_reverse]
  exact List.nodup_reverse.2 (nodup_placedFrom 0 s.gates.toList)

theorem kept_keep (s : Sweep) (g : Gate) : (s.keep g).kept = (s.gates.size, g) :: s.kept := by
  rw [kept, keep, Array.toList_push, placedFrom_concat]
  simp [kept]

theorem kept_remove (s : Sweep) (place : Nat) (lines : List Qubit) :
    (s.remove place lines).kept = s.kept.filter (·.1 ≠ place) := by
  rw [kept, remove, Array.toList_setIfInBounds, placedFrom_set, Nat.zero_add, kept,
    List.filter_reverse]

theorem survivors_eq (s : Sweep) : s.survivors = (s.kept.map Prod.snd).reverse := by
  rw [survivors, kept, ← List.map_reverse, List.reverse_reverse, map_snd_placedFrom]

theorem getElem?_foldl_modify {lines : List Qubit} (f : List Nat → List Nat)
    (piles : Array (List Nat)) (q : Qubit) (hn : lines.Nodup) :
    (lines.foldl (fun piles l => piles.modify l f) piles)[q]? =
      if q ∈ lines then piles[q]?.map f else piles[q]? := by
  induction lines generalizing piles with
  | nil => rfl
  | cons l lines ih =>
    obtain ⟨hl, hlines⟩ := List.nodup_cons.1 hn
    rw [List.foldl_cons, ih _ hlines, Array.getElem?_modify]
    by_cases hq : l = q
    · subst hq
      simp [hl]
    · simp [hq, Ne.symm hq]

end Kept

section Step

variable {n : Nat} {s : Sweep} {g : Gate}

theorem start_invariant (n : Nat) : (start n).Invariant n := by
  constructor
  · intro q hq
    simp [start, kept, placedFrom, placesOn, hq]
  · intro x hx
    cases hx

theorem keep_invariant (hs : s.Invariant n) (hg : g.Fits n) : (s.keep g).Invariant n := by
  constructor
  · intro q hq
    rw [kept_keep, keep, getElem?_foldl_modify _ _ _ hg.distinct, hs.piles q hq]
    by_cases hmem : q ∈ g.lines
    · simp [placesOn, hmem]
    · simp [placesOn, hmem]
  · rw [kept_keep]
    exact List.forall_mem_cons.2 ⟨hg, hs.fits⟩

theorem top?_eq (hs : s.Invariant n) {q : Qubit} (hq : q < n) :
    s.top? q = (placesOn s.kept q).head? := by
  rw [top?, hs.piles q hq]
  rfl

theorem places_ne_of_split {place : Nat} {prev : Gate} {before after : List (Nat × Gate)}
    (heq : s.kept = before ++ (place, prev) :: after) :
    (∀ x ∈ before, x.1 ≠ place) ∧ (∀ x ∈ after, x.1 ≠ place) := by
  have hnodup := s.nodup_kept
  rw [heq, List.map_append, List.map_cons, List.nodup_append, List.nodup_cons] at hnodup
  obtain ⟨-, ⟨hafter, -⟩, hbefore⟩ := hnodup
  constructor
  · intro x hx
    exact hbefore x.1 (List.mem_map_of_mem hx) place List.mem_cons_self
  · intro x hx hplace
    exact hafter (List.mem_map.2 ⟨x, hx, hplace⟩)

theorem placesOn_append (before after : List (Nat × Gate)) (q : Qubit) :
    placesOn (before ++ after) q = placesOn before q ++ placesOn after q := by
  rw [placesOn, List.filter_append, List.map_append]
  rfl

theorem placesOn_cons_of_mem {q : Qubit} {x : Nat × Gate} (rest : List (Nat × Gate))
    (h : q ∈ x.2.lines) : placesOn (x :: rest) q = x.1 :: placesOn rest q := by
  simp [placesOn, h]

theorem placesOn_cons_of_not_mem {q : Qubit} {x : Nat × Gate} (rest : List (Nat × Gate))
    (h : q ∉ x.2.lines) : placesOn (x :: rest) q = placesOn rest q := by
  simp [placesOn, h]

theorem placesOn_eq_nil_iff {kept : List (Nat × Gate)} {q : Qubit} :
    placesOn kept q = [] ↔ ∀ x ∈ kept, q ∉ x.2.lines := by
  simp [placesOn]

theorem mem_placesOn {kept : List (Nat × Gate)} {q : Qubit} {place : Nat} :
    place ∈ placesOn kept q ↔ ∃ g, (place, g) ∈ kept ∧ q ∈ g.lines := by
  simp [placesOn]

theorem placesOn_eq_nil_of_apart {before : List (Nat × Gate)} {q : Qubit}
    (h : ∀ x ∈ before, x.2.touches g = false) (hq : q ∈ g.lines) : placesOn before q = [] := by
  rw [placesOn_eq_nil_iff]
  intro x hx hqx
  exact Gate.touches_eq_false_iff.1 (h x hx) q hqx hq

/-- A kept gate is the latest on one of its lines when none of the later ones is on that line. -/
theorem top?_eq_some_iff (hs : s.Invariant n) {place : Nat} {prev : Gate}
    {before after : List (Nat × Gate)} (heq : s.kept = before ++ (place, prev) :: after) {q : Qubit}
    (hn : q < n) (hq : q ∈ prev.lines) : s.top? q = some place ↔ placesOn before q = [] := by
  rw [top?_eq hs hn, heq, placesOn_append, placesOn_cons_of_mem after hq]
  constructor
  · intro htop
    cases hplaces : placesOn before q with
    | nil => rfl
    | cons first rest =>
      rw [hplaces, List.cons_append, List.head?_cons, Option.some.injEq] at htop
      have hmem : first ∈ placesOn before q := hplaces ▸ List.mem_cons_self
      obtain ⟨h, hfirst, -⟩ := mem_placesOn.1 hmem
      exact absurd htop ((places_ne_of_split heq).1 _ hfirst)
  · intro hnone
    rw [hnone]
    rfl

theorem partner?_eq_some_iff (hs : s.Invariant n) (hg : g.Fits n) {place : Nat} :
    s.partner? g = some place ↔
      ∃ before prev after, s.kept = before ++ (place, prev) :: after ∧
        (∀ x ∈ before, x.2.touches g = false) ∧ prev.cancels g = true := by
  constructor
  · intro h
    simp only [partner?, Option.bind_eq_bind, Option.bind_eq_some_iff,
      Option.ite_none_right_eq_some, Option.some.injEq, Bool.and_eq_true, List.all_eq_true,
      decide_eq_true_eq] at h
    obtain ⟨_, -, _, -, spot, hspot, prev, rfl, ⟨htops, hc⟩, rfl⟩ := h
    obtain ⟨before, after, heq⟩ := List.append_of_mem (mem_kept.2 hspot)
    refine ⟨before, prev, after, heq, ?_, hc⟩
    intro x hx
    rw [Gate.touches_comm, Gate.touches_eq_false_iff]
    intro q hq
    have hprev : q ∈ prev.lines := Gate.lines_of_cancels hc ▸ hq
    have hnone := (top?_eq_some_iff hs heq (hg.inside q hq) hprev).1 (htops q hq)
    exact placesOn_eq_nil_iff.1 hnone x hx
  · rintro ⟨before, prev, after, heq, hbefore, hc⟩
    have hspot : s.gates[place]? = some (some prev) := by
      rw [← mem_kept, heq]
      exact List.mem_append_right _ List.mem_cons_self
    have htops : ∀ q ∈ g.lines, s.top? q = some place := by
      intro q hq
      have hprev : q ∈ prev.lines := Gate.lines_of_cancels hc ▸ hq
      exact (top?_eq_some_iff hs heq (hg.inside q hq) hprev).2
        (placesOn_eq_nil_of_apart hbefore hq)
    obtain ⟨q, rest, hlines⟩ := List.exists_cons_of_ne_nil hg.lines_ne
    have hfirst := htops q (hlines ▸ List.mem_cons_self)
    have hhead : g.lines.head? = some q := by rw [hlines]; rfl
    simp only [partner?, hhead, hfirst, hspot, hc, Option.bind_eq_bind, Option.bind_some,
      Bool.and_true, List.all_eq_true, decide_eq_true_eq]
    exact if_pos htops

theorem kept_remove_of_split {place : Nat} {prev : Gate} {before after : List (Nat × Gate)}
    (heq : s.kept = before ++ (place, prev) :: after) (lines : List Qubit) :
    (s.remove place lines).kept = before ++ after := by
  obtain ⟨hbefore, hafter⟩ := places_ne_of_split heq
  have hb : before.filter (·.1 ≠ place) = before :=
    List.filter_eq_self.2 fun x hx => decide_eq_true (hbefore x hx)
  have ha : after.filter (·.1 ≠ place) = after :=
    List.filter_eq_self.2 fun x hx => decide_eq_true (hafter x hx)
  rw [kept_remove, heq, List.filter_append, List.filter_cons_of_neg (by simp), hb, ha]

theorem remove_invariant (hs : s.Invariant n) (hg : g.Fits n) {place : Nat}
    (h : s.partner? g = some place) : (s.remove place g.lines).Invariant n := by
  obtain ⟨before, prev, after, heq, hbefore, hc⟩ := (partner?_eq_some_iff hs hg).1 h
  have hl := Gate.lines_of_cancels hc
  constructor
  · intro q hq
    rw [kept_remove_of_split heq, remove, getElem?_foldl_modify _ _ _ hg.distinct,
      hs.piles q hq, heq]
    by_cases hmem : q ∈ g.lines
    · have hnone := placesOn_eq_nil_of_apart hbefore hmem
      rw [if_pos hmem, placesOn_append, hnone, placesOn_cons_of_mem after (hl ▸ hmem),
        placesOn_append, hnone]
      rfl
    · rw [if_neg hmem, placesOn_append, placesOn_append,
        placesOn_cons_of_not_mem after (hl ▸ hmem)]
  · intro x hx
    rw [kept_remove_of_split heq] at hx
    apply hs.fits
    rw [heq]
    exact List.mem_append.2 ((List.mem_append.1 hx).imp_right (List.mem_cons_of_mem _))

theorem step_spec (hs : s.Invariant n) (hg : g.Fits n) :
    (s.step g).Invariant n ∧
      (s.step g).kept.map Prod.snd = absorb (s.kept.map Prod.snd) g := by
  cases h : s.partner? g with
  | some place =>
    obtain ⟨before, prev, after, heq, hbefore, hc⟩ := (partner?_eq_some_iff hs hg).1 h
    have hapart : ∀ x ∈ before.map Prod.snd, x.touches g = false := by
      intro x hx
      obtain ⟨y, hy, rfl⟩ := List.mem_map.1 hx
      exact hbefore y hy
    have hcancel := cancelWith?_append (after.map Prod.snd) hapart hg.lines_ne hc
    rw [step, h]
    refine ⟨remove_invariant hs hg h, ?_⟩
    rw [kept_remove_of_split heq, absorb, heq, List.map_append, List.map_append, List.map_cons,
      hcancel]
    rfl
  | none =>
    have hcancel : cancelWith? g (s.kept.map Prod.snd) = none := by
      rw [Option.eq_none_iff_forall_ne_some]
      intro rest hrest
      obtain ⟨before, p, after, heq, -, hbefore, hc⟩ := exists_of_cancelWith? hrest
      obtain ⟨first, back, hkept, rfl, hback⟩ := List.map_eq_append_iff.1 heq
      obtain ⟨⟨place, prev⟩, last, rfl, rfl, rfl⟩ := List.map_eq_cons_iff.1 hback
      have hpartner : s.partner? g = some place := by
        rw [partner?_eq_some_iff hs hg]
        exact ⟨first, prev, last, hkept, fun x hx => hbefore _ (List.mem_map_of_mem hx), hc⟩
      rw [h] at hpartner
      cases hpartner
    rw [step, h]
    refine ⟨keep_invariant hs hg, ?_⟩
    rw [kept_keep, absorb, hcancel]
    rfl

theorem foldl_step_spec {gates : List Gate} (hs : s.Invariant n) (hg : ∀ g ∈ gates, g.Fits n) :
    (gates.foldl step s).Invariant n ∧
      (gates.foldl step s).kept.map Prod.snd = gates.foldl absorb (s.kept.map Prod.snd) := by
  induction gates generalizing s with
  | nil => exact ⟨hs, rfl⟩
  | cons g gates ih =>
    obtain ⟨hfits, hrest⟩ := List.forall_mem_cons.1 hg
    obtain ⟨hstep, heq⟩ := step_spec hs hfits
    rw [List.foldl_cons, List.foldl_cons, ← heq]
    exact ih hstep hrest

theorem survivors_sweep {gates : List Gate} (hg : ∀ g ∈ gates, g.Fits n) :
    (gates.foldl step (start n)).survivors = keptGates gates := by
  rw [survivors_eq, (foldl_step_spec (start_invariant n) hg).2]
  rfl

end Step

end Sweep

end QubitRouting
