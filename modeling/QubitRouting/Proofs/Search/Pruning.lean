import Mathlib.Data.List.Induction
import QubitRouting.Proofs.Search.Bound

/-!
Turning states away does not change the choice. Against a choice made before, nothing below a state
that is turned away is cheaper; against the ceiling, everything below is dearer than a path that the
search has not met yet. Until it meets one, the pruned choice and the full one may differ, but both
are above the ceiling, and from then on they are the same.
-/

namespace QubitRouting

def choose (best : Option (Nat × Path)) (p : Path) : Option (Nat × Path) :=
  match best with
  | none => some (p.roundTrip, p)
  | some (least, q) => if p.roundTrip < least then some (p.roundTrip, p) else some (least, q)

structure FirstLeast (l : List Path) (cost : Nat) (p : Path) : Prop where
  least : ∀ q ∈ l, cost ≤ q.roundTrip
  first : l.find? (fun q => q.roundTrip = cost) = some p

namespace FirstLeast

variable {l : List Path} {cost : Nat} {p : Path}

theorem roundTrip_eq (h : FirstLeast l cost p) : p.roundTrip = cost := by
  simpa using List.find?_some h.first

theorem mem (h : FirstLeast l cost p) : p ∈ l := List.mem_of_find?_eq_some h.first

theorem min?_eq (h : FirstLeast l cost p) : (l.map Path.roundTrip).min? = some cost := by
  rw [List.min?_eq_some_iff]
  refine ⟨List.mem_map.2 ⟨p, h.mem, h.roundTrip_eq⟩, ?_⟩
  intro c hc
  obtain ⟨q, hq, rfl⟩ := List.mem_map.1 hc
  exact h.least q hq

theorem concat_of_le {q : Path} (h : FirstLeast l cost p) (hq : cost ≤ q.roundTrip) :
    FirstLeast (l ++ [q]) cost p where
  least := List.forall_mem_append.2 ⟨h.least, List.forall_mem_singleton.2 hq⟩
  first := by rw [List.find?_append, h.first, Option.some_or]

theorem concat_of_lt {q : Path} (h : FirstLeast l cost p) (hq : q.roundTrip < cost) :
    FirstLeast (l ++ [q]) q.roundTrip q where
  least := by
    refine List.forall_mem_append.2 ⟨fun r hr => ?_, List.forall_mem_singleton.2 le_rfl⟩
    exact hq.le.trans (h.least r hr)
  first := by
    have hnone : l.find? (fun r => r.roundTrip = q.roundTrip) = none := by
      rw [List.find?_eq_none]
      intro r hr
      have := h.least r hr
      simp only [decide_eq_true_eq]
      omega
    rw [List.find?_append, hnone]
    simp

end FirstLeast

theorem foldl_choose (l : List Path) :
    (l = [] ∧ l.foldl choose none = none) ∨
      ∃ cost p, l.foldl choose none = some (cost, p) ∧ FirstLeast l cost p := by
  induction l using List.reverseRecOn with
  | nil => exact Or.inl ⟨rfl, rfl⟩
  | append_singleton l q ih =>
    refine Or.inr ?_
    rw [List.foldl_append, List.foldl_cons, List.foldl_nil]
    rcases ih with ⟨rfl, hnone⟩ | ⟨cost, p, hsome, before⟩
    · refine ⟨q.roundTrip, q, by rw [hnone, choose], ?_, ?_⟩
      · exact List.forall_mem_singleton.2 le_rfl
      · simp
    · rw [hsome, choose]
      split_ifs with hlt
      · exact ⟨_, _, rfl, before.concat_of_lt hlt⟩
      · exact ⟨_, _, rfl, before.concat_of_le (Nat.not_lt.1 hlt)⟩

def Above (ceiling : Option Nat) (best : Option (Nat × Path)) : Prop :=
  ∃ bound, ceiling = some bound ∧ ∀ cost p, best = some (cost, p) → bound < cost

/-- Two choices are the same, or neither is within the ceiling. -/
def Agree (ceiling : Option Nat) (pruned full : Option (Nat × Path)) : Prop :=
  pruned = full ∨ (Above ceiling pruned ∧ Above ceiling full)

theorem above_some_iff {bound : Nat} {best : Option (Nat × Path)} :
    Above (some bound) best ↔ ∀ cost p, best = some (cost, p) → bound < cost := by
  constructor
  · rintro ⟨_, hb, h⟩
    obtain rfl := Option.some.inj hb
    exact h
  · exact fun h => ⟨bound, rfl, h⟩

section Choice

variable {ceiling : Option Nat} {best pruned full : Option (Nat × Path)} {l : List Path} {p : Path}

theorem choose_of_le {cost : Nat} {q : Path} (h : cost ≤ p.roundTrip) :
    choose (some (cost, q)) p = some (cost, q) := by
  rw [choose, if_neg (Nat.not_lt.2 h)]

theorem foldl_choose_of_le {cost : Nat} {q : Path} (h : ∀ p ∈ l, cost ≤ p.roundTrip) :
    l.foldl choose (some (cost, q)) = some (cost, q) := by
  induction l with
  | nil => rfl
  | cons p l ih =>
    obtain ⟨hp, hrest⟩ := List.forall_mem_cons.1 h
    rw [List.foldl_cons, choose_of_le hp, ih hrest]

theorem above_choose {bound : Nat} (hp : bound < p.roundTrip) (h : Above (some bound) best) :
    Above (some bound) (choose best p) := by
  rw [above_some_iff] at h ⊢
  intro cost q hq
  rcases best with _ | ⟨least, r⟩
  · obtain rfl := congrArg Prod.fst (Option.some.inj hq)
    exact hp
  · rw [choose] at hq
    split_ifs at hq
    · obtain rfl := congrArg Prod.fst (Option.some.inj hq)
      exact hp
    · exact h cost q hq

theorem above_foldl_choose {bound : Nat} (hl : ∀ p ∈ l, bound < p.roundTrip)
    (h : Above (some bound) best) : Above (some bound) (l.foldl choose best) := by
  induction l generalizing best with
  | nil => exact h
  | cons p l ih =>
    obtain ⟨hp, hrest⟩ := List.forall_mem_cons.1 hl
    exact ih hrest (above_choose hp h)

theorem choose_of_above {bound : Nat} (hp : p.roundTrip ≤ bound) (h : Above (some bound) best) :
    choose best p = some (p.roundTrip, p) := by
  rw [above_some_iff] at h
  rcases best with _ | ⟨least, r⟩
  · rfl
  · rw [choose, if_pos (Nat.lt_of_le_of_lt hp (h least r rfl))]

theorem Agree.choose (h : Agree ceiling pruned full) (p : Path) :
    Agree ceiling (choose pruned p) (choose full p) := by
  rcases h with rfl | ⟨hpruned, hfull⟩
  · exact Or.inl rfl
  · obtain ⟨bound, rfl, -⟩ := id hpruned
    rcases Nat.lt_or_ge bound p.roundTrip with hp | hp
    · exact Or.inr ⟨above_choose hp hpruned, above_choose hp hfull⟩
    · exact Or.inl (by rw [choose_of_above hp hpruned, choose_of_above hp hfull])

theorem Agree.foldl_choose (h : Agree ceiling pruned full) (l : List Path) :
    Agree ceiling (l.foldl QubitRouting.choose pruned) (l.foldl QubitRouting.choose full) := by
  induction l generalizing pruned full with
  | nil => exact h
  | cons p l ih => exact ih (h.choose p)

/-- Candidates that cost no less than the choice, or more than the ceiling, may be left out. -/
theorem Agree.skip {bound : Nat} (h : Agree ceiling pruned full)
    (hl : ∀ p ∈ l, bound ≤ p.roundTrip)
    (hbest : ∀ cost q, pruned = some (cost, q) → cost ≤ bound)
    (hnone : pruned = none → ∃ c, ceiling = some c ∧ c < bound) :
    Agree ceiling pruned (l.foldl QubitRouting.choose full) := by
  -- Where the pruned choice is above the ceiling, all that is left out is dearer than the ceiling.
  have dearer : ∀ c, ceiling = some c → Above (some c) pruned → ∀ p ∈ l, c < p.roundTrip := by
    intro c hc hab p hp
    refine Nat.lt_of_lt_of_le ?_ (hl p hp)
    rw [above_some_iff] at hab
    rcases pruned with _ | ⟨cost, q⟩
    · obtain ⟨_, hc', hlt⟩ := hnone rfl
      obtain rfl := Option.some.inj (hc.symm.trans hc')
      exact hlt
    · exact Nat.lt_of_lt_of_le (hab cost q rfl) (hbest cost q rfl)
  rcases h with rfl | ⟨hpruned, hfull⟩
  · rcases pruned with _ | ⟨cost, q⟩
    · obtain ⟨c, rfl, -⟩ := hnone rfl
      have empty : Above (some c) none := above_some_iff.2 nofun
      exact Or.inr ⟨empty, above_foldl_choose (dearer c rfl empty) empty⟩
    · have hle : ∀ p ∈ l, cost ≤ p.roundTrip := fun p hp => (hbest cost q rfl).trans (hl p hp)
      exact Or.inl (foldl_choose_of_le hle).symm
  · obtain ⟨c, rfl, -⟩ := id hpruned
    exact Or.inr ⟨hpruned, above_foldl_choose (dearer c rfl hpruned) hfull⟩

end Choice

namespace CheapestSoFar

theorem offer_of_fits {p : Path} {x : CheapestSoFar} (h : (x.offer p).overflow = false) :
    x.overflow = false ∧ (x.offer p).best = choose x.best p := by
  obtain ⟨best, overflow⟩ := x
  unfold offer at h ⊢
  cases overflow with
  | true => exact absurd h (by simp)
  | false =>
    refine ⟨rfl, ?_⟩
    cases hp : p.roundTrip? with
    | none => simp [hp] at h
    | some cost =>
      obtain rfl : p.roundTrip = cost := by
        rw [Path.roundTrip?] at hp
        split_ifs at hp
        exact Option.some.inj hp
      rcases best with _ | ⟨least, q⟩ <;> rfl

theorem foldl_offer_of_fits {l : List Path} {x : CheapestSoFar}
    (h : (l.foldl (fun x p => x.offer p) x).overflow = false) :
    x.overflow = false ∧
      (l.foldl (fun x p => x.offer p) x).best = l.foldl choose x.best := by
  induction l generalizing x with
  | nil => exact ⟨h, rfl⟩
  | cons p l ih =>
    obtain ⟨hoffer, hbest⟩ := ih h
    obtain ⟨hx, hchoose⟩ := offer_of_fits hoffer
    exact ⟨hx, by rw [List.foldl_cons, List.foldl_cons, hbest, hchoose]⟩

theorem visitor_complete (ceiling : Option Nat) (p : Path) (x : CheapestSoFar) :
    (visitor ceiling).complete p x = (Graph.offered p).foldl (fun x q => x.offer q) x := by
  simp only [visitor, Graph.offered]
  cases p.mergeRelays? <;> rfl

theorem admits_eq_false {ceiling : Option Nat} {relays : List Move} {x : CheapestSoFar}
    (hx : x.overflow = false) (h : x.admits ceiling relays = false) :
    (∀ cost q, x.best = some (cost, q) → cost ≤ lowerBound relays) ∧
      (x.best = none → ∃ c, ceiling = some c ∧ c < lowerBound relays) := by
  obtain ⟨best, overflow⟩ := x
  obtain rfl : overflow = false := hx
  unfold admits at h
  rcases best with _ | ⟨least, q⟩
  · rcases ceiling with _ | c
    · simp at h
    · refine ⟨nofun, fun _ => ⟨c, rfl, ?_⟩⟩
      simpa using h
  · refine ⟨fun cost r hr => ?_, nofun⟩
    obtain rfl := congrArg Prod.fst (Option.some.inj hr)
    simpa using h

end CheapestSoFar

namespace Graph

variable {g : Graph} {limit : Option Nat} {ceiling : Option Nat} {c₀ t₀ : Qubit}

def candidatesFrom (g : Graph) (limit : Option Nat) (s : SearchState) : List Path :=
  (g.pathsFrom limit s).flatMap offered

def SearchAgrees (g : Graph) (limit ceiling : Option Nat) (s : SearchState) : Prop :=
  ∀ (x : CheapestSoFar) (full : Option (Nat × Path)),
    (g.visitFrom limit (CheapestSoFar.visitor ceiling) s x).overflow = false →
    x.overflow = false ∧ (Agree ceiling x.best full →
      Agree ceiling (g.visitFrom limit (CheapestSoFar.visitor ceiling) s x).best
        ((g.candidatesFrom limit s).foldl choose full))

theorem foldl_agrees {ts : List SearchState} (h : ∀ t ∈ ts, g.SearchAgrees limit ceiling t)
    (x : CheapestSoFar) (full : Option (Nat × Path))
    (hfits : (ts.foldl (fun x t => g.visitFrom limit (CheapestSoFar.visitor ceiling) t x)
      x).overflow = false) :
    x.overflow = false ∧ (Agree ceiling x.best full →
      Agree ceiling (ts.foldl (fun x t => g.visitFrom limit (CheapestSoFar.visitor ceiling) t x)
        x).best ((ts.flatMap (g.candidatesFrom limit)).foldl choose full)) := by
  induction ts generalizing x full with
  | nil => exact ⟨hfits, id⟩
  | cons t ts ih =>
    obtain ⟨ht, hts⟩ := List.forall_mem_cons.1 h
    obtain ⟨hmid, hrest⟩ := ih hts _ ((g.candidatesFrom limit t).foldl choose full) hfits
    obtain ⟨hx, hstep⟩ := ht x full hmid
    refine ⟨hx, fun hagree => ?_⟩
    rw [List.flatMap_cons, List.foldl_append]
    exact hrest (hstep hagree)

theorem search_agrees (h₀ : c₀ ≠ t₀) {s : SearchState} (hs : g.SearchInvariant c₀ t₀ s) :
    g.SearchAgrees limit ceiling s := by
  induction s using search_induction g with
  | step s ih =>
    intro x full hfits
    cases hadmit : ((CheapestSoFar.visitor ceiling).enter s.relays x).1 with
    | false =>
      rw [visitFrom_of_skipped _ hadmit] at hfits ⊢
      obtain ⟨hbest, hnone⟩ := CheapestSoFar.admits_eq_false hfits hadmit
      refine ⟨hfits, fun hagree => hagree.skip (fun q hq => ?_) hbest hnone⟩
      obtain ⟨p, hp, hq⟩ := List.mem_flatMap.1 hq
      exact lowerBound_le_offered hs h₀ hp hq
    | true =>
      cases hlast : g.terminal? s.control s.target with
      | some last =>
        rw [visitFrom_of_terminal _ hadmit hlast, CheapestSoFar.visitor_complete] at hfits ⊢
        obtain ⟨hx, hbest⟩ := CheapestSoFar.foldl_offer_of_fits hfits
        refine ⟨hx, fun hagree => ?_⟩
        rw [hbest, candidatesFrom, pathsFrom_of_terminal hlast, List.flatMap_singleton]
        exact hagree.foldl_choose _
      | none =>
        cases hl : exhausted limit s.relays with
        | true =>
          rw [visitFrom_of_exhausted _ hadmit hlast hl] at hfits ⊢
          rw [candidatesFrom, pathsFrom_of_exhausted hlast hl]
          exact ⟨hfits, id⟩
        | false =>
          rw [visitFrom_of_open _ hadmit hlast hl] at hfits ⊢
          rw [candidatesFrom, pathsFrom_of_open hlast hl, List.flatMap_assoc]
          refine foldl_agrees (fun t ht => ?_) x full hfits
          exact ih t ht (step_preserves_invariant hs ht)

end Graph

end QubitRouting
