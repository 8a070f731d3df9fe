import QubitRouting.Proofs.Search.Board
import QubitRouting.Proofs.Search.Simple

/-!
What a visitor is told. The tree of the states below the start gives the events of a search that
turns nothing away, depth first. A visitor that turns states away is told about what is left of
these events when all those below the states that it turned away are dropped.
-/

namespace QubitRouting

/-- A path comes before those that extend it. -/
theorem Path.order_lt_of_extends {p before : Path} {r : Relay} (h : before ++ [.relay r] <+: p) :
    before.order < p.order := by
  obtain ⟨rest, rfl⟩ := h
  rw [List.append_assoc, order, order, relayList_append, List.map_append]
  nth_rewrite 1 [← List.append_nil (before.relayList.map Relay.order)]
  apply List.append_left_lt
  exact List.nil_lt_cons _ _

namespace Graph

namespace SearchEvent

variable {test : List Move → Bool} {relays : List Move} {e : SearchEvent}

def moves : SearchEvent → List Move
  | .enter relays => relays
  | .skip relays => relays
  | .complete p => p

def shown? : SearchEvent → Option (List Move)
  | .enter relays => some relays
  | .skip relays => some relays
  | .complete _ => none

def completed? : SearchEvent → Option Path
  | .complete p => some p
  | _ => none

/-- The test holds of all moves before the last: of the moves of every state above a state, and of
the relays of every state that a path passes. -/
def Passes (test : List Move → Bool) (moves : List Move) : Prop :=
  ∀ k < moves.length, test (moves.take k) = true

instance (test : List Move → Bool) (moves : List Move) : Decidable (Passes test moves) :=
  inferInstanceAs (Decidable (∀ k < moves.length, test (moves.take k) = true))

/-- The same event in a search that goes below a state only if its moves pass the test. -/
def heard (test : List Move → Bool) : SearchEvent → SearchEvent
  | .enter relays => if test relays then .enter relays else .skip relays
  | .skip relays => if test relays then .enter relays else .skip relays
  | .complete p => .complete p

def prune (test : List Move → Bool) (events : List SearchEvent) : List SearchEvent :=
  (events.filter fun e => Passes test e.moves).map (heard test)

theorem passes_nil : Passes test [] := nofun

theorem passes_concat {m : Move} :
    Passes test (relays ++ [m]) ↔ Passes test relays ∧ test relays = true := by
  constructor
  · intro h
    constructor
    · intro k hk
      have := h k (by rw [List.length_append]; omega)
      rwa [List.take_append_of_le_length hk.le] at this
    · have := h relays.length (by simp)
      rwa [List.take_left' rfl] at this
  · rintro ⟨hpasses, htest⟩ k hk
    rw [List.length_append, List.length_singleton] at hk
    rw [List.take_append_of_le_length (Nat.le_of_lt_succ hk)]
    rcases Nat.lt_succ_iff_lt_or_eq.1 hk with hk | rfl
    · exact hpasses k hk
    · rwa [List.take_length]

theorem not_passes_of_prefix {moves : List Move} {m : Move} (htest : test relays = false)
    (h : relays ++ [m] <+: moves) : ¬ Passes test moves := by
  intro hpasses
  obtain ⟨rest, rfl⟩ := h
  have := hpasses relays.length (by simp)
  rw [List.append_assoc, List.take_left' rfl, htest] at this
  cases this

theorem shown?_heard (test : List Move → Bool) (e : SearchEvent) :
    (heard test e).shown? = e.shown? := by
  cases e with
  | enter relays | skip relays => rw [heard]; split_ifs <;> rfl
  | complete p => rfl

theorem completed?_heard (test : List Move → Bool) (e : SearchEvent) :
    (heard test e).completed? = e.completed? := by
  cases e with
  | enter relays | skip relays => rw [heard]; split_ifs <;> rfl
  | complete p => rfl

theorem moves_of_shown (e : SearchEvent) (r : List Move) (h : r ∈ e.shown?) : r = e.moves := by
  cases e with
  | enter relays | skip relays => exact (Option.some.inj h).symm
  | complete p => cases h

theorem moves_of_completed (e : SearchEvent) (r : List Move) (h : r ∈ e.completed?) :
    r = e.moves := by
  cases e with
  | enter relays | skip relays => cases h
  | complete p => exact (Option.some.inj h).symm

theorem prune_cons_of_passes (h : Passes test e.moves) (events : List SearchEvent) :
    prune test (e :: events) = heard test e :: prune test events := by
  simp [prune, h]

theorem prune_eq_nil {events : List SearchEvent} (h : ∀ e ∈ events, ¬ Passes test e.moves) :
    prune test events = [] := by
  rw [prune, List.filter_eq_nil_iff.2 (by simpa using h), List.map_nil]

theorem prune_flatMap {α : Type} (f : α → List SearchEvent) (l : List α) :
    prune test (l.flatMap f) = l.flatMap fun a => prune test (f a) := by
  rw [prune, List.filter_flatMap, List.map_flatMap]
  rfl

/-- Pruning leaves those of the moves that pass. -/
theorem filterMap_prune {f : SearchEvent → Option (List Move)}
    (hmoves : ∀ e, ∀ r ∈ f e, r = e.moves) (hheard : ∀ e, f (heard test e) = f e)
    (events : List SearchEvent) : (prune test events).filterMap f =
      (events.filterMap f).filter fun r => Passes test r := by
  induction events with
  | nil => rfl
  | cons e events ih =>
    by_cases hpasses : Passes test e.moves
    · rw [prune_cons_of_passes hpasses, List.filterMap_cons, List.filterMap_cons, hheard, ih]
      cases he : f e with
      | none => rfl
      | some r =>
        obtain rfl := hmoves e r he
        simp [hpasses]
    · have hdrop : prune test (e :: events) = prune test events := by simp [prune, hpasses]
      rw [hdrop, ih, List.filterMap_cons]
      cases he : f e with
      | none => rfl
      | some r =>
        obtain rfl := hmoves e r he
        simp [hpasses]

end SearchEvent

open SearchEvent

variable {g : Graph} {limit : Option Nat} {σ : Type} {c₀ t₀ c t : Qubit} {s : SearchState}

def eventsFrom (g : Graph) (limit : Option Nat) (s : SearchState) : List SearchEvent :=
  .enter s.relays ::
    match g.terminal? s.control s.target with
    | some last => [.complete (s.relays ++ [last])]
    | none =>
      if exhausted limit s.relays then []
      else (s.successors g).attach.flatMap fun t => eventsFrom g limit t.1
termination_by s.unvisited.length
decreasing_by exact SearchState.length_unvisited_lt t.2

def events (g : Graph) (limit : Option Nat) (c t : Qubit) : List SearchEvent :=
  if c ≠ t ∧ c < g.size ∧ t < g.size then g.eventsFrom limit (g.searchStart c t) else []

theorem eventsFrom_of_terminal {last : Move} (h : g.terminal? s.control s.target = some last) :
    g.eventsFrom limit s = [.enter s.relays, .complete (s.relays ++ [last])] := by
  rw [eventsFrom, h]

theorem eventsFrom_of_exhausted (h : g.terminal? s.control s.target = none)
    (hl : exhausted limit s.relays = true) : g.eventsFrom limit s = [.enter s.relays] := by
  rw [eventsFrom, h]
  simp [hl]

theorem eventsFrom_of_open (h : g.terminal? s.control s.target = none)
    (hl : exhausted limit s.relays = false) :
    g.eventsFrom limit s = .enter s.relays :: (s.successors g).flatMap (g.eventsFrom limit) := by
  rw [eventsFrom, h]
  simp [hl, List.flatMap_subtype]

theorem mem_eventsFrom {e : SearchEvent} :
    e ∈ g.eventsFrom limit s ↔ ∃ u, g.Reaches limit s u ∧ (e = .enter u.relays ∨
      ∃ last, g.terminal? u.control u.target = some last ∧ e = .complete (u.relays ++ [last])) := by
  constructor
  · intro he
    induction s using search_induction g with
    | step s ih =>
      cases h : g.terminal? s.control s.target with
      | some last =>
        rw [eventsFrom_of_terminal h, List.mem_cons, List.mem_singleton] at he
        rcases he with rfl | rfl
        · exact ⟨s, .refl, Or.inl rfl⟩
        · exact ⟨s, .refl, Or.inr ⟨last, h, rfl⟩⟩
      | none =>
        cases hl : exhausted limit s.relays with
        | true =>
          rw [eventsFrom_of_exhausted h hl, List.mem_singleton] at he
          exact ⟨s, .refl, Or.inl he⟩
        | false =>
          rw [eventsFrom_of_open h hl, List.mem_cons, List.mem_flatMap] at he
          rcases he with rfl | ⟨t, ht, he⟩
          · exact ⟨s, .refl, Or.inl rfl⟩
          · obtain ⟨u, htu, hu⟩ := ih t ht he
            exact ⟨u, .head ⟨h, hl, ht⟩ htu, hu⟩
  · rintro ⟨u, hreach, hu⟩
    induction hreach using Relation.ReflTransGen.head_induction_on with
    | refl =>
      rcases hu with rfl | ⟨last, hlast, rfl⟩
      · rw [eventsFrom]
        exact List.mem_cons_self
      · simp [eventsFrom_of_terminal hlast]
    | head hst _ ih =>
      rw [eventsFrom_of_open hst.1 hst.2.1]
      exact List.mem_cons_of_mem _ (List.mem_flatMap.2 ⟨_, hst.2.2, ih⟩)

theorem prefix_of_mem_eventsFrom {e : SearchEvent} (he : e ∈ g.eventsFrom limit s) :
    s.relays <+: e.moves := by
  obtain ⟨u, hreach, rfl | ⟨last, -, rfl⟩⟩ := mem_eventsFrom.1 he
  · exact hreach.relays_prefix
  · exact hreach.relays_prefix.trans (List.prefix_append _ _)

/-- First the state is shown; what comes after lies below it. -/
theorem eventsFrom_eq_cons (g : Graph) (limit : Option Nat) (s : SearchState) :
    ∃ rest, g.eventsFrom limit s = .enter s.relays :: rest ∧
      ∀ e ∈ rest, ∃ m, s.relays ++ [m] <+: e.moves := by
  cases h : g.terminal? s.control s.target with
  | some last =>
    refine ⟨_, eventsFrom_of_terminal h, fun e he => ⟨last, ?_⟩⟩
    rw [List.mem_singleton.1 he]
    exact List.prefix_rfl
  | none =>
    cases hl : exhausted limit s.relays with
    | true => exact ⟨[], eventsFrom_of_exhausted h hl, nofun⟩
    | false =>
      refine ⟨_, eventsFrom_of_open h hl, fun e he => ?_⟩
      obtain ⟨t, ht, he⟩ := List.mem_flatMap.1 he
      obtain ⟨x, -, carried, heading, -, rfl⟩ := mem_successors.1 ht
      exact ⟨_, prefix_of_mem_eventsFrom he⟩

theorem mem_shown {relays : List Move} : relays ∈ (g.eventsFrom limit s).filterMap shown? ↔
    ∃ u, g.Reaches limit s u ∧ u.relays = relays := by
  rw [List.mem_filterMap]
  constructor
  · rintro ⟨e, he, hshown⟩
    obtain ⟨u, hreach, rfl | ⟨last, -, rfl⟩⟩ := mem_eventsFrom.1 he
    · exact ⟨u, hreach, Option.some.inj hshown⟩
    · cases hshown
  · rintro ⟨u, hreach, rfl⟩
    exact ⟨.enter u.relays, mem_eventsFrom.2 ⟨u, hreach, Or.inl rfl⟩, rfl⟩

theorem completed_eventsFrom (g : Graph) (limit : Option Nat) (s : SearchState) :
    (g.eventsFrom limit s).filterMap completed? = g.pathsFrom limit s := by
  induction s using search_induction g with
  | step s ih =>
    cases h : g.terminal? s.control s.target with
    | some last => rw [eventsFrom_of_terminal h, pathsFrom_of_terminal h]; rfl
    | none =>
      cases hl : exhausted limit s.relays with
      | true => rw [eventsFrom_of_exhausted h hl, pathsFrom_of_exhausted h hl]; rfl
      | false =>
        rw [eventsFrom_of_open h hl, pathsFrom_of_open h hl,
          List.filterMap_cons_none (by rfl), List.filterMap_flatMap]
        exact List.flatMap_congr fun t ht => ih t ht

/-- States are shown in the order of their relays, each before those below it. -/
theorem pairwise_shown (hs : g.Explored c₀ t₀ s) :
    ((g.eventsFrom limit s).filterMap shown?).Pairwise fun p q => Path.order p < Path.order q := by
  induction s using search_induction g with
  | step s ih =>
    cases h : g.terminal? s.control s.target with
    | some last =>
      rw [eventsFrom_of_terminal h]
      exact List.pairwise_singleton _ _
    | none =>
      cases hl : exhausted limit s.relays with
      | true =>
        rw [eventsFrom_of_exhausted h hl]
        exact List.pairwise_singleton _ _
      | false =>
        rw [eventsFrom_of_open h hl, List.filterMap_cons_some (by rfl), List.filterMap_flatMap,
          List.pairwise_cons, List.pairwise_flatMap]
        refine ⟨?_, ?_, ?_⟩
        · intro q hq
          obtain ⟨u, hu, hq⟩ := List.mem_flatMap.1 hq
          obtain ⟨w, hreach, rfl⟩ := mem_shown.1 hq
          obtain ⟨x, -, carried, heading, -, rfl⟩ := mem_successors.1 hu
          exact Path.order_lt_of_extends hreach.relays_prefix
        · exact fun u hu => ih u hu (hs.step ⟨h, hl, hu⟩)
        · refine (pairwise_successors hs.ascending).imp ?_
          rintro a b ⟨r, r', ha, hb, hlt⟩ p hp q hq
          obtain ⟨u, hu, rfl⟩ := mem_shown.1 hp
          obtain ⟨w, hw, rfl⟩ := mem_shown.1 hq
          exact Path.order_lt_of_parting hlt (ha ▸ hu.relays_prefix) (hb ▸ hw.relays_prefix)

section Pruning

variable {test : List Move → Bool}

def pruning (test : List Move → Bool) (enter : List Move → σ → σ) (complete : Path → σ → σ) :
    Visitor σ :=
  ⟨fun relays gathered => (test relays, enter relays gathered), complete⟩

def tell (enter : List Move → σ → σ) (complete : Path → σ → σ) (gathered : σ) :
    SearchEvent → σ
  | .enter relays => enter relays gathered
  | .skip relays => enter relays gathered
  | .complete p => complete p gathered

variable (enter : List Move → σ → σ) (complete : Path → σ → σ)

theorem tell_heard (gathered : σ) (relays : List Move) :
    tell enter complete gathered (heard test (.enter relays)) = enter relays gathered := by
  rw [heard]
  split_ifs <;> rfl

/-- Below a state that is shown, a visitor with a test is told about the events that are left. -/
theorem visitFrom_pruning (s : SearchState) (hs : Passes test s.relays) (gathered : σ) :
    g.visitFrom limit (pruning test enter complete) s gathered =
      (prune test (g.eventsFrom limit s)).foldl (tell enter complete) gathered := by
  induction s using search_induction g generalizing gathered with
  | step s ih =>
    have first : ∀ rest, prune test (.enter s.relays :: rest) =
        heard test (.enter s.relays) :: prune test rest := prune_cons_of_passes hs
    cases htest : test s.relays with
    | false =>
      obtain ⟨rest, hrest, hbelow⟩ := g.eventsFrom_eq_cons limit s
      have hnil : prune test rest = [] := prune_eq_nil fun e he => by
        obtain ⟨m, hm⟩ := hbelow e he
        exact not_passes_of_prefix htest hm
      rw [visitFrom_of_skipped _ htest, hrest, first, hnil, List.foldl_cons, tell_heard]
      rfl
    | true =>
      have next : ∀ m, Passes test (s.relays ++ [m]) := fun m => passes_concat.2 ⟨hs, htest⟩
      cases h : g.terminal? s.control s.target with
      | some last =>
        rw [visitFrom_of_terminal _ htest h, eventsFrom_of_terminal h, first,
          prune_cons_of_passes (next last), List.foldl_cons, tell_heard]
        rfl
      | none =>
        cases hl : exhausted limit s.relays with
        | true =>
          rw [visitFrom_of_exhausted _ htest h hl, eventsFrom_of_exhausted h hl, first,
            List.foldl_cons, tell_heard]
          rfl
        | false =>
          rw [visitFrom_of_open _ htest h hl, eventsFrom_of_open h hl, first, prune_flatMap,
            List.foldl_cons, tell_heard, List.foldl_flatMap]
          refine List.foldl_ext _ _ _ fun x t ht => ih t ht ?_ x
          obtain ⟨x, -, carried, heading, -, rfl⟩ := mem_successors.1 ht
          exact next _

theorem visit_pruning (c t : Qubit) (gathered : σ) :
    g.visit limit (pruning test enter complete) c t gathered =
      (prune test (g.events limit c t)).foldl (tell enter complete) gathered := by
  unfold visit events
  split_ifs
  · exact visitFrom_pruning enter complete _ passes_nil gathered
  · rfl

def noteState (test : List Move → Bool) (relays : List Move) (told : List SearchEvent) :
    List SearchEvent :=
  heard test (.enter relays) :: told

def notePath (p : Path) (told : List SearchEvent) : List SearchEvent := .complete p :: told

theorem tell_note {e : SearchEvent} {events : List SearchEvent} (he : e ∈ prune test events)
    (told : List SearchEvent) : tell (noteState test) notePath told e = e :: told := by
  obtain ⟨e, -, rfl⟩ := List.mem_map.1 he
  cases e with
  | enter relays => exact tell_heard _ _ told relays
  | skip relays => exact tell_heard _ _ told relays
  | complete p => rfl

theorem searchEvents_eq_noted (g : Graph) (limit : Option Nat) (test : List Move → Bool)
    (c t : Qubit) : g.searchEvents limit test c t =
      (g.visit limit (pruning test (noteState test) notePath) c t []).reverse := by
  have hvisitor : pruning test (noteState test) notePath =
      ⟨fun relays told =>
        if test relays then (true, .enter relays :: told) else (false, .skip relays :: told),
        fun p told => .complete p :: told⟩ := by
    rw [pruning, Visitor.mk.injEq]
    refine ⟨?_, rfl⟩
    funext relays told
    cases htest : test relays <;> simp [noteState, heard, htest]
  rw [hvisitor]
  rfl

/-- The events of a search with a test are what the test leaves of all events. -/
theorem searchEvents_eq_prune (g : Graph) (limit : Option Nat) (test : List Move → Bool)
    (c t : Qubit) : g.searchEvents limit test c t = prune test (g.events limit c t) := by
  rw [searchEvents_eq_noted, visit_pruning,
    List.foldl_ext _ (fun told e => e :: told) _ fun told e he => tell_note he told,
    List.foldl_flip_cons_eq_append', List.append_nil, List.reverse_reverse]

theorem searchEvents_true (g : Graph) (limit : Option Nat) (c t : Qubit) :
    g.searchEvents limit (fun _ => true) c t = g.events limit c t := by
  have hall : ∀ e ∈ g.events limit c t, decide (Passes (fun _ => true) e.moves) = true :=
    fun e _ => decide_eq_true fun _ _ => rfl
  have hsame : ∀ e ∈ g.events limit c t, heard (fun _ => true) e = e := by
    intro e he
    unfold events at he
    split_ifs at he
    · obtain ⟨u, -, rfl | ⟨last, -, rfl⟩⟩ := mem_eventsFrom.1 he <;> rfl
    · cases he
  rw [searchEvents_eq_prune, prune, List.filter_eq_self.2 hall, List.map_congr_left hsame,
    List.map_id']

end Pruning

section Replay

/-- How far a visitor has been told a sequence of events: what it has gathered, and the moves of the
states that it turned away. -/
structure Replay (σ : Type) where
  gathered : σ
  closed : List (List Move)

/-- Tells a visitor about an event, unless that lies below a state that it turned away. -/
def Replay.hear (v : Visitor σ) (r : Replay σ) (e : SearchEvent) : Replay σ :=
  if ∃ moves ∈ r.closed, moves <+: e.moves then r
  else
    match e with
    | .enter relays =>
      match v.enter relays r.gathered with
      | (true, gathered) => ⟨gathered, r.closed⟩
      | (false, gathered) => ⟨gathered, relays :: r.closed⟩
    | .skip _ => r
    | .complete p => ⟨v.complete p r.gathered, r.closed⟩

variable {v : Visitor σ} {closed : List (List Move)} {relays : List Move} {x : σ}

def Unclosed (closed : List (List Move)) (relays : List Move) : Prop :=
  ∀ moves ∈ closed, ∀ below, relays <+: below → ¬ moves <+: below

theorem Unclosed.below {moves : List Move} (h : Unclosed closed relays)
    (hbelow : relays <+: moves) : Unclosed closed moves :=
  fun m hm below hprefix => h m hm below (hbelow.trans hprefix)

theorem hear_of_unclosed {e : SearchEvent} (h : Unclosed closed e.moves) :
    ¬ ∃ moves ∈ closed, moves <+: e.moves := by
  rintro ⟨moves, hmem, hprefix⟩
  exact h moves hmem e.moves List.prefix_rfl hprefix

theorem hear_complete {p : Path} (h : Unclosed closed p) :
    Replay.hear v ⟨x, closed⟩ (.complete p) = ⟨v.complete p x, closed⟩ :=
  if_neg (hear_of_unclosed (e := .complete p) h)

theorem hear_of_accepted (h : Unclosed closed relays) (hv : (v.enter relays x).1 = true) :
    Replay.hear v ⟨x, closed⟩ (.enter relays) = ⟨(v.enter relays x).2, closed⟩ := by
  rw [Replay.hear, if_neg (hear_of_unclosed (e := .enter relays) h)]
  cases hv' : v.enter relays x with
  | mk accepted gathered =>
    obtain rfl : accepted = true := by rwa [hv'] at hv
    rfl

theorem hear_of_rejected (h : Unclosed closed relays) (hv : (v.enter relays x).1 = false) :
    Replay.hear v ⟨x, closed⟩ (.enter relays) = ⟨(v.enter relays x).2, relays :: closed⟩ := by
  rw [Replay.hear, if_neg (hear_of_unclosed (e := .enter relays) h)]
  cases hv' : v.enter relays x with
  | mk accepted gathered =>
    obtain rfl : accepted = false := by rwa [hv'] at hv
    rfl

theorem foldl_hear_of_closed {events : List SearchEvent} (hclosed : relays ∈ closed)
    (hbelow : ∀ e ∈ events, relays <+: e.moves) :
    events.foldl (Replay.hear v) ⟨x, closed⟩ = ⟨x, closed⟩ := by
  induction events with
  | nil => rfl
  | cons e events ih =>
    obtain ⟨he, hevents⟩ := List.forall_mem_cons.1 hbelow
    have hskip : Replay.hear v ⟨x, closed⟩ e = ⟨x, closed⟩ := if_pos ⟨relays, hclosed, he⟩
    rw [List.foldl_cons, hskip, ih hevents]

/-- Telling the events below a state, while nothing there is closed, gathers what the search below
it gathers; whatever it closes lies below it. -/
def Retold (g : Graph) (limit : Option Nat) (v : Visitor σ) (s : SearchState) : Prop :=
  ∀ closed, Unclosed closed s.relays → ∀ x, ∃ closed',
    (g.eventsFrom limit s).foldl (Replay.hear v) ⟨x, closed⟩ =
      ⟨g.visitFrom limit v s x, closed'⟩ ∧
    ∀ moves ∈ closed', moves ∈ closed ∨ s.relays <+: moves

/-- Successors are told one after the other: nothing that is closed below one is above the next. -/
theorem foldl_hear_flatMap {s : SearchState} {l : List SearchState}
    (hparted : l.Pairwise (Precedes s)) (each : ∀ t ∈ l, Retold g limit v t)
    (hopen : ∀ t ∈ l, Unclosed closed t.relays) (x : σ) :
    ∃ closed', (l.flatMap (g.eventsFrom limit)).foldl (Replay.hear v) ⟨x, closed⟩ =
        ⟨l.foldl (fun x t => g.visitFrom limit v t x) x, closed'⟩ ∧
      ∀ moves ∈ closed', moves ∈ closed ∨ ∃ t ∈ l, t.relays <+: moves := by
  induction l generalizing closed x with
  | nil => exact ⟨closed, rfl, fun moves h => Or.inl h⟩
  | cons t l ih =>
    obtain ⟨hfirst, hparted⟩ := List.pairwise_cons.1 hparted
    obtain ⟨ht, each⟩ := List.forall_mem_cons.1 each
    obtain ⟨hopent, hopen⟩ := List.forall_mem_cons.1 hopen
    obtain ⟨closed₁, htold, hclosed₁⟩ := ht closed hopent x
    have hopen₁ : ∀ u ∈ l, Unclosed closed₁ u.relays := by
      intro u hu moves hmoves below hbelow hprefix
      rcases hclosed₁ moves hmoves with hold | hnew
      · exact hopen u hu moves hold below hbelow hprefix
      · obtain ⟨r, r', hr, hr', hlt⟩ := hfirst u hu
        have hparts := Path.order_lt_of_parting hlt (hr ▸ hnew.trans hprefix) (hr' ▸ hbelow)
        exact lt_irrefl _ hparts
    obtain ⟨closed₂, hrest, hclosed₂⟩ := ih hparted each hopen₁ (g.visitFrom limit v t x)
    refine ⟨closed₂, ?_, fun moves hmoves => ?_⟩
    · rw [List.flatMap_cons, List.foldl_append, htold, hrest, List.foldl_cons]
    · rcases hclosed₂ moves hmoves with hmem | ⟨u, hu, hprefix⟩
      · rcases hclosed₁ moves hmem with hold | hnew
        · exact Or.inl hold
        · exact Or.inr ⟨t, List.mem_cons_self, hnew⟩
      · exact Or.inr ⟨u, List.mem_cons_of_mem _ hu, hprefix⟩

theorem Explored.retold (hs : g.Explored c₀ t₀ s) (v : Visitor σ) : Retold g limit v s := by
  induction s using search_induction g with
  | step s ih =>
    intro closed hopen x
    cases hv : (v.enter s.relays x).1 with
    | false =>
      obtain ⟨rest, hrest, hbelow⟩ := g.eventsFrom_eq_cons limit s
      refine ⟨s.relays :: closed, ?_, ?_⟩
      · rw [hrest, List.foldl_cons, hear_of_rejected hopen hv, visitFrom_of_skipped v hv]
        refine foldl_hear_of_closed List.mem_cons_self fun e he => ?_
        obtain ⟨m, hm⟩ := hbelow e he
        exact (List.prefix_append _ _).trans hm
      · intro moves hmoves
        rcases List.mem_cons.1 hmoves with rfl | hmoves
        · exact Or.inr List.prefix_rfl
        · exact Or.inl hmoves
    | true =>
      cases h : g.terminal? s.control s.target with
      | some last =>
        refine ⟨closed, ?_, fun moves hmoves => Or.inl hmoves⟩
        rw [eventsFrom_of_terminal h, visitFrom_of_terminal v hv h, List.foldl_cons,
          hear_of_accepted hopen hv, List.foldl_cons,
          hear_complete (hopen.below (List.prefix_append _ _))]
        rfl
      | none =>
        cases hl : exhausted limit s.relays with
        | true =>
          refine ⟨closed, ?_, fun moves hmoves => Or.inl hmoves⟩
          rw [eventsFrom_of_exhausted h hl, visitFrom_of_exhausted v hv h hl, List.foldl_cons,
            hear_of_accepted hopen hv]
          rfl
        | false =>
          have hbelow : ∀ t ∈ s.successors g, s.relays <+: t.relays := fun t ht =>
            Reaches.relays_prefix (.single ⟨h, hl, ht⟩)
          obtain ⟨closed', htold, hclosed'⟩ := foldl_hear_flatMap
            (pairwise_successors hs.ascending)
            (fun t ht => ih t ht (hs.step ⟨h, hl, ht⟩))
            (fun t ht => hopen.below (hbelow t ht)) (v.enter s.relays x).2
          refine ⟨closed', ?_, fun moves hmoves => ?_⟩
          · rw [eventsFrom_of_open h hl, visitFrom_of_open v hv h hl, List.foldl_cons,
              hear_of_accepted hopen hv, htold]
          · rcases hclosed' moves hmoves with hold | ⟨t, ht, hprefix⟩
            · exact Or.inl hold
            · exact Or.inr ((hbelow t ht).trans hprefix)

end Replay

section Start

structure Unpruned (g : Graph) (limit : Option Nat) (c t : Qubit) : Prop where
  all : g.searchEvents limit (fun _ => true) c t = g.events limit c t
  /-- The states that are shown have the simple relays within the limit. -/
  shown : ∀ relays, relays ∈ (g.events limit c t).filterMap shown? ↔
    (c ≠ t ∧ c < g.size ∧ t < g.size) ∧ (∃ a b, g.Simple c t relays a b) ∧
      ∀ k ∈ limit, relays.length ≤ k
  /-- Each of them is shown once, and before those below it. -/
  ordered : ((g.events limit c t).filterMap shown?).Pairwise
    fun p q => Path.order p < Path.order q
  completed : (g.events limit c t).filterMap completed? = g.enumerate limit c t

/-- The events of a search that turns away the states that fail a test. They are, in the same order,
those of the states and paths above which every state passes. -/
structure Pruned (g : Graph) (limit : Option Nat) (test : List Move → Bool) (c t : Qubit) :
    Prop where
  events : g.searchEvents limit test c t =
    ((g.events limit c t).filter fun e => Passes test e.moves).map (heard test)
  shown : (g.searchEvents limit test c t).filterMap shown? =
    ((g.events limit c t).filterMap shown?).filter fun relays => Passes test relays
  completed : (g.searchEvents limit test c t).filterMap completed? =
    (g.enumerate limit c t).filter fun p => Passes test p
  /-- Every visitor that decides by the test is told these events. -/
  told : ∀ {σ : Type} (enter : List Move → σ → σ) (complete : Path → σ → σ) (x : σ),
    g.visit limit (pruning test enter complete) c t x =
      (g.searchEvents limit test c t).foldl (tell enter complete) x

theorem unpruned (g : Graph) (limit : Option Nat) (c t : Qubit) : Unpruned g limit c t := by
  have all := searchEvents_true g limit c t
  by_cases hon : c ≠ t ∧ c < g.size ∧ t < g.size
  · have explored := explored_start hon.1 hon.2.1 hon.2.2
    have hevents : g.events limit c t = g.eventsFrom limit (g.searchStart c t) := if_pos hon
    refine ⟨all, fun relays => ?_, ?_, ?_⟩
    · rw [hevents, mem_shown]
      constructor
      · rintro ⟨u, hreach, rfl⟩
        have simple := (reaches_explored explored hreach).simple
        exact ⟨hon, ⟨_, _, simple⟩, hreach.length_le fun _ _ => Nat.zero_le _⟩
      · rintro ⟨-, ⟨a, b, simple⟩, hl⟩
        obtain ⟨u, hreach, -, -, hrelays⟩ := simple.exists_reaches hon.2.1 hon.2.2 hl
        exact ⟨u, hreach, hrelays⟩
    · rw [hevents]
      exact pairwise_shown explored
    · rw [hevents, completed_eventsFrom, enumerate_eq g limit hon.1 hon.2.1 hon.2.2]
  · have hevents : g.events limit c t = [] := if_neg hon
    refine ⟨all, fun relays => ?_, ?_, ?_⟩
    · rw [hevents]
      exact iff_of_false (by simp) fun h => hon h.1
    · rw [hevents]
      exact .nil
    · rw [hevents, enumerate_of_outside hon]
      rfl

theorem pruned (g : Graph) (limit : Option Nat) (test : List Move → Bool) (c t : Qubit) :
    Pruned g limit test c t where
  events := searchEvents_eq_prune g limit test c t
  shown := by
    rw [searchEvents_eq_prune]
    exact filterMap_prune moves_of_shown (shown?_heard test) _
  completed := by
    rw [searchEvents_eq_prune, ← (unpruned g limit c t).completed]
    exact filterMap_prune moves_of_completed (completed?_heard test) _
  told := by
    intro σ enter complete x
    rw [searchEvents_eq_prune, visit_pruning]

theorem visit_eq_replay (v : Visitor σ) (c t : Qubit) (x : σ) :
    g.visit limit v c t x = ((g.events limit c t).foldl (Replay.hear v) ⟨x, []⟩).gathered := by
  unfold visit events
  split_ifs with hon
  · have explored := explored_start hon.1 hon.2.1 hon.2.2
    obtain ⟨closed, htold, -⟩ := explored.retold v [] nofun x
    rw [htold]
  · rfl

end Start

/-- A visitor is told about the tree of states as far as it does not turn them away. One with a test
is told what passes. One that decides by what it has gathered is told all events but those below the
states that it turned away, and a search on one board that is changed in place tells it the same. -/
theorem visit_skips_below (g : Graph) (limit : Option Nat) (test : List Move → Bool)
    (c t : Qubit) :
    Unpruned g limit c t ∧ Pruned g limit test c t ∧
    ∀ {σ : Type} (v : Visitor σ) (x : σ),
      g.visit limit v c t x = ((g.events limit c t).foldl (Replay.hear v) ⟨x, []⟩).gathered ∧
      g.visitInPlace limit v c t x = g.visit limit v c t x :=
  ⟨unpruned g limit c t, pruned g limit test c t,
    fun v x => ⟨visit_eq_replay v c t x, visitInPlace_eq v c t x⟩⟩

/-- When the state that carries the control is turned away, its path is not completed. -/
example : (row 3).searchEvents none (fun relays => relays != [.cab 0 1]) 0 2 =
    [.enter [], .skip [.cab 0 1], .enter [.tba 2 1], .complete [.tba 2 1, .nop 0 1]] := by
  decide +kernel

end Graph

end QubitRouting
