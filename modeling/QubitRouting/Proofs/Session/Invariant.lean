import QubitRouting.Proofs.Placement.Search
import QubitRouting.Proofs.Table.Meaning
import QubitRouting.Session.Basic

/-!
Sessions stay sound. What a call can do to a session is said once, for all of the calls; from it
follow that a call that fails has changed nothing, and that in every session that is reached a table
stands beside the graph it was built for, with an entry for every pair.
-/

namespace QubitRouting.Session

section Runs

variable {α β : Type} {s s' : Session} {m : Action α} {f : α → Action β}

theorem run_bind : s.run (m >>= f) =
    match s.run m with
    | (.ok a, s') => s'.run (f a)
    | (.error e, s') => (.error e, s') := by
  unfold run
  rw [ExceptT.run_bind, StateT.run_bind]
  rcases (ExceptT.run m).run s with ⟨_ | a, s'⟩ <;> rfl

theorem run_check (x : Except RoutingError α) : s.run (check x) = (x, s) := by
  cases x <;> rfl

def Yields (s : Session) (m : Action α) (P : α → Session → Prop) : Prop :=
  match s.run m with
  | (.ok a, s') => P a s'
  | (.error _, s') => s' = s

variable {P : α → Session → Prop} {Q : β → Session → Prop}

theorem Yields.of_ok {a : α} (h : s.Yields m P) (hrun : s.run m = (.ok a, s')) : P a s' := by
  rwa [Yields, hrun] at h

theorem Yields.of_error {e : RoutingError} (h : s.Yields m P) (hrun : s.run m = (.error e, s')) :
    s' = s := by
  rwa [Yields, hrun] at h

theorem Yields.imp {P' : α → Session → Prop} (h : s.Yields m P) (hP : ∀ a s', P a s' → P' a s') :
    s.Yields m P' := by
  unfold Yields
  rcases hrun : s.run m with ⟨e | a, s'⟩
  · exact h.of_error hrun
  · exact hP a s' (h.of_ok hrun)

theorem yields_check {x : Except RoutingError α} (h : ∀ a, x = .ok a → s.Yields (f a) Q) :
    s.Yields (check x >>= f) Q := by
  rw [Yields, run_bind, run_check]
  cases x with
  | error e => rfl
  | ok a => exact h a rfl

theorem yields_get {f : Session → Action β} (h : s.Yields (f s) Q) : s.Yields (get >>= f) Q := h

/-- What follows a change must not fail. -/
theorem Yields.bind (h : s.Yields m P)
    (hf : ∀ a s', P a s' → ∃ b t, s'.run (f a) = (.ok b, t) ∧ Q b t) :
    s.Yields (m >>= f) Q := by
  rw [Yields, run_bind]
  rcases hrun : s.run m with ⟨e | a, s'⟩
  · exact h.of_error hrun
  · obtain ⟨b, t, hb, hQ⟩ := hf a s' (h.of_ok hrun)
    simp only [hb]
    exact hQ

end Runs

inductive Call where
  | load (name : String)
  | loadArchitecture (name : String)
  | setGraph (g : Graph)
  | build
  | ensureTable
  | readCache (name : String)
  | writeCache (name : String)
  | clear
  | route (c : Circuit)
  | place (c : Circuit)
  | routeByTemplate (c : Circuit) (device : String)
  | placeByTemplate (c : Circuit) (device : String)

def Call.operation (files : Files) : Call → Action Unit
  | load name => do let _ ← Session.load files name
  | loadArchitecture name => do let _ ← Session.loadArchitecture name
  | setGraph g => do let _ ← Session.setGraph g
  | build => do let _ ← Session.build
  | ensureTable => do let _ ← Session.ensureTable
  | readCache name => do let _ ← Session.readCache files name
  | writeCache name => do let _ ← check ((← get).writeCache files name)
  | clear => Session.clear
  | route c => do let _ ← check ((← get).route c)
  | place c => do let _ ← check ((← get).place c)
  | routeByTemplate c device => do let _ ← check ((← get).routeByTemplate c device)
  | placeByTemplate c device => do let _ ← check ((← get).placeByTemplate c device)

inductive Change (s : Session) : Session → Prop
  | kept : Change s s
  | replaced (g : Graph) : Change s { s with graph := some g, table := none }
  | built {g : Graph} {t : RoutingTable} (loaded : s.graph = some g)
      (built : RoutingTable.build g s.settings.maxRelayMoves = .ok t) :
      Change s { s with table := some t }
  | adopted {t : RoutingTable} (fits : ∀ g ∈ s.graph, g = t.graph) :
      Change s { s with graph := some t.graph, table := some t }
  | cleared : Change s { s with graph := none, table := none }

section Calls

variable {s : Session} {files : Files}

theorem yields_load (name : String) : s.Yields (load files name) fun _ => s.Change :=
  yields_check fun _ _ => yields_check fun g _ => Change.replaced g

theorem yields_loadArchitecture (name : String) :
    s.Yields (loadArchitecture name) fun _ => s.Change :=
  yields_check fun a _ => Change.replaced a.graph

theorem currentGraph_eq_ok_iff {g : Graph} : s.currentGraph = .ok g ↔ s.graph = some g := by
  unfold currentGraph
  cases s.graph <;> simp

theorem accepts_eq_ok_iff {g : Graph} {t : RoutingTable} : accepts g t = .ok () ↔ g = t.graph := by
  unfold accepts
  split_ifs with hsize hgraph
  · simp only [false_iff]
    rintro rfl
    exact hsize rfl
  · simpa using hgraph
  · simpa using hgraph

theorem yields_build :
    s.Yields build fun t s' => s' = { s with table := some t } ∧ s.Change s' := by
  refine yields_get (yields_check fun g hg => yields_check fun t ht => ?_)
  exact ⟨rfl, .built (currentGraph_eq_ok_iff.1 hg) ht⟩

theorem currentTable_eq_ok_iff {t : RoutingTable} :
    s.currentTable = .ok t ↔ s.table = some t := by
  unfold currentTable
  cases s.table <;> simp

theorem yields_ensureTable : s.Yields ensureTable fun _ => s.Change := by
  refine yields_get ?_
  cases ht : s.table with
  | some t =>
    refine yields_get ?_
    have hcurrent : s.currentTable = .ok t := currentTable_eq_ok_iff.2 ht
    rw [hcurrent]
    exact Change.kept
  | none =>
    refine yields_build.bind fun t s' ⟨hs', change⟩ => ⟨t, s', ?_, change⟩
    have hcurrent : s'.currentTable = .ok t := currentTable_eq_ok_iff.2 (by rw [hs'])
    rw [run_bind]
    change s'.run (check s'.currentTable) = _
    rw [run_check, hcurrent]

theorem yields_readCache (name : String) : s.Yields (readCache files name) fun _ => s.Change := by
  refine yields_check fun text _ => yields_check fun t _ => yields_get ?_
  cases hg : s.graph with
  | none =>
    have fits : ∀ g ∈ s.graph, g = t.graph := by simp [hg]
    exact Change.adopted fits
  | some g =>
    refine yields_check fun _ haccepts => ?_
    obtain rfl := accepts_eq_ok_iff.1 haccepts
    have hs : ({ s with table := some t } : Session) =
        { s with graph := some t.graph, table := some t } := by rw [hg]
    change s.Change { s with table := some t }
    rw [hs]
    exact Change.adopted (by simp [hg])

/-- The one place where the calls are looked at: each fails and has changed nothing, or it succeeds
with one of the changes. -/
theorem yields_operation (files : Files) (call : Call) :
    s.Yields (call.operation files) fun _ => s.Change := by
  have only : ∀ {α : Type} {m : Action α}, (s.Yields m fun _ => s.Change) →
      s.Yields (do let _ ← m) fun _ => s.Change :=
    fun h => h.bind fun _ s' change => ⟨⟨⟩, s', rfl, change⟩
  cases call with
  | load name => exact only (yields_load name)
  | loadArchitecture name => exact only (yields_loadArchitecture name)
  | setGraph g => exact Change.replaced g
  | build => exact only (yields_build.imp fun _ _ h => h.2)
  | ensureTable => exact only yields_ensureTable
  | readCache name => exact only (yields_readCache name)
  | clear => exact Change.cleared
  | writeCache _ => exact yields_get (yields_check fun _ _ => Change.kept)
  | route _ => exact yields_get (yields_check fun _ _ => Change.kept)
  | place _ => exact yields_get (yields_check fun _ _ => Change.kept)
  | routeByTemplate _ _ => exact yields_get (yields_check fun _ _ => Change.kept)
  | placeByTemplate _ _ => exact yields_get (yields_check fun _ _ => Change.kept)

end Calls

/-- A table stands beside its own graph and has an entry for every pair of different qubits. -/
structure Sound (s : Session) : Prop where
  matching : ∀ t ∈ s.table, s.graph = some t.graph
  populated : ∀ t ∈ s.table, ∀ v w, v < t.size → w < t.size → v ≠ w → (t.get? v w).isSome

/-- The sessions after any calls from a new session, with any files at each of them. -/
inductive Reached (settings : Settings) : Session → Prop
  | start : Reached settings (new settings)
  | call {s : Session} (files : Files) (call : Call) (reached : Reached settings s) :
      Reached settings (s.run (call.operation files)).2

variable {settings : Settings} {s s' : Session}

theorem sound_new : (new settings).Sound := by
  constructor
  · intro t ht
    cases ht
  · intro t ht
    cases ht

theorem Sound.change (h : s.Sound) (change : s.Change s') : s'.Sound := by
  have populated : ∀ (t : RoutingTable) v w, v < t.size → w < t.size → v ≠ w →
      (t.get? v w).isSome := fun t v w hv hw hvw => RoutingTable.isSome_get?_iff.2 ⟨hv, hw, hvw⟩
  refine ⟨?_, fun t _ => populated t⟩
  cases change with
  | kept => exact h.matching
  | replaced g => exact fun t ht => by cases ht
  | built loaded hbuild =>
    rintro t ⟨⟩
    rw [RoutingTable.build_graph hbuild]
    exact loaded
  | adopted fits =>
    rintro t ⟨⟩
    rfl
  | cleared => exact fun t ht => by cases ht

theorem Sound.step (h : s.Sound) (files : Files) (call : Call) :
    (s.run (call.operation files)).2.Sound := by
  have hyields := yields_operation (s := s) files call
  rcases hrun : s.run (call.operation files) with ⟨e | a, s'⟩
  · rwa [hyields.of_error hrun]
  · exact h.change (hyields.of_ok hrun)

theorem Reached.sound (h : Reached settings s) : s.Sound := by
  induction h with
  | start => exact sound_new
  | call files call _ ih => exact ih.step files call

section Routing

open RoutingTable

variable {t : RoutingTable} {c : Circuit} {v w : Qubit}

/-- The path of every pair of different qubits is there to be taken. -/
theorem routeGate_ne_unreachable {gate : Gate} (hfit : gate.Fits t.size) :
    t.routeGate gate ≠ .error (.unreachable v w) := by
  intro h
  cases hcontrolled : isControlledNot gate with
  | false =>
    rw [routeGate, if_pos (by simp [hcontrolled])] at h
    cases h
  | true =>
    cases hi : gate.interaction with
    | error e =>
      rw [routeGate, if_neg (by simp [hcontrolled]), hi, error_bind] at h
      obtain rfl := Except.error.inj h
      unfold Gate.interaction at hi
      split at hi <;> cases hi
    | ok pair =>
      obtain ⟨hc, rest, htargets⟩ := Gate.interaction_eq_ok_iff.1 hi
      obtain ⟨hnot, -⟩ := isControlledNot_iff.1 hcontrolled
      obtain ⟨e, he⟩ := Option.isSome_iff_exists.1 (isSome_get?_iff.2 (hfit.pair hc htargets))
      rw [routeGate_of_pair hfit hnot hc htargets, he] at h
      split_ifs at h

theorem table_route_ne_unreachable (hv : c.Valid) : t.route c ≠ .error (.unreachable v w) := by
  intro h
  obtain ⟨hl, gate, hgate, h⟩ := Circuit.exists_of_routeBy_unreachable h
  exact routeGate_ne_unreachable ((hv gate hgate).mono hl) h

theorem route_ne_unreachable (hv : c.Valid) : s.route c ≠ .error (.unreachable v w) := by
  intro h
  rcases bind_eq_error_iff.1 h with h | ⟨t, -, h⟩
  · unfold currentTable at h
    split at h <;> cases h
  · exact table_route_ne_unreachable hv h

/-- A circuit that was moved onto the device fits it, whatever the circuit was. -/
theorem place_ne_unreachable : s.place c ≠ .error (.unreachable v w) := by
  intro h
  rcases bind_eq_error_iff.1 h with h | ⟨t, -, h⟩
  · unfold currentTable at h
    split at h <;> cases h
  · obtain ⟨layout, moved, hmoved, h⟩ := exists_of_searchPlacement_unreachable h
    obtain ⟨hlines, hgates⟩ := Layout.of_apply hmoved
    have hvalid : moved.Valid := fun gate hgate => hlines ▸ (hgates gate hgate).1
    exact table_route_ne_unreachable hvalid h

end Routing

/-- After any calls, with any files at each of them: a table stands beside its own graph and has all
of its entries; a call that fails changes nothing; and routing a circuit that fits its lines, or
placing one, does not meet a pair out of reach. -/
theorem reached_sound (h : Reached settings s) :
    (∀ t, s.table = some t → s.graph = some t.graph ∧
      ∀ v w, v < t.size → w < t.size → v ≠ w → (t.get? v w).isSome) ∧
    (∀ files (call : Call) e s', s.run (call.operation files) = (.error e, s') → s' = s) ∧
    ∀ c : Circuit, c.Valid → ∀ v w,
      s.route c ≠ .error (.unreachable v w) ∧ s.place c ≠ .error (.unreachable v w) := by
  refine ⟨?_, ?_, ?_⟩
  · intro t ht
    exact ⟨h.sound.matching t ht, h.sound.populated t ht⟩
  · intro files call e s' hrun
    exact (yields_operation files call).of_error hrun
  · intro c hv v w
    exact ⟨route_ne_unreachable hv, place_ne_unreachable⟩

/-- The session with a table for a row of three qubits: a file that is not there does no harm, and
the ends of the row are in reach. -/
theorem reached_sound_row : ∃ s : Session, Reached .default s ∧
    (∃ t, s.table = some t ∧ s.graph = some t.graph ∧ (t.get? 0 2).isSome) ∧
    (s.run ((Call.load "missing").operation .empty)).2 = s ∧
    s.route ⟨"ends", 3, [.cnot 0 2]⟩ ≠ .error (.unreachable 0 2) := by
  obtain ⟨t, ht⟩ := RoutingTable.exists_build_row
  let s : Session := ⟨.default, some (Graph.row 3), some t⟩
  have hbuild : ((⟨.default, some (Graph.row 3), none⟩ : Session).run
      (Call.build.operation .empty)).2 = s := by
    have hget : ∀ s : Session, s.run (get : Action Session) = (.ok s, s) := fun _ => rfl
    simp only [Call.operation, build, run_bind, run_check, hget, currentGraph, Settings.default, ht]
    rfl
  have hreached : Reached .default s := by
    rw [← hbuild]
    exact .call .empty .build (.call .empty (.setGraph (Graph.row 3)) .start)
  obtain ⟨htable, hfailed, hroute⟩ := reached_sound hreached
  have hsize : t.size = 3 := by rw [RoutingTable.size, RoutingTable.build_graph ht]; rfl
  obtain ⟨hgraph, hall⟩ := htable t rfl
  refine ⟨s, hreached, ⟨t, rfl, hgraph, ?_⟩, ?_, ?_⟩
  · exact hall 0 2 (by omega) (by omega) (by decide)
  · exact hfailed .empty (.load "missing") _ _ rfl
  · exact (hroute ⟨"ends", 3, [.cnot 0 2]⟩ (by decide) 0 2).1

end QubitRouting.Session
