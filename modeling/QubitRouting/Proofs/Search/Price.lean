import QubitRouting.Proofs.Relay.Price
import QubitRouting.Proofs.Search.Choice
import QubitRouting.Proofs.Search.Simple

/-!
What the candidates of a search cost, and how the cheapest of them end. Of relays that feed a native
CNOT the last one or two are cheaper merged. Three and more are not; but then it is cheaper to take
the target back to where the last relay leads, before the last two relays are made.
-/

namespace QubitRouting

namespace Path

/-- The ways in which the cheapest paths end between the places `c` and `t`, each with its price and
with the number of its gates. -/
inductive Ending (c t : Qubit) : Path → Nat → Nat → Prop
  | native : Ending c t [.nop c t] 0 1
  | reversed : Ending c t [.flip c t] 4 5
  | single (a : Qubit) : Ending c t [.cnot3 c a t] 3 4
  | double (a b : Qubit) : Ending c t [.cnot3 b a t, .cnot3 c b t] 15 10

variable {g : Graph} {c t a b : Qubit} {relays core run : Path} {price emitted : Nat}

namespace Ending

theorem terminals (h : Ending c t core price emitted) : core.Terminals := by
  intro m hm
  cases h with
  | native => rw [List.mem_singleton.1 hm]; rfl
  | reversed => rw [List.mem_singleton.1 hm]; rfl
  | single a => rw [List.mem_singleton.1 hm]; rfl
  | double a b =>
    rcases List.mem_cons.1 hm with rfl | hm
    · rfl
    · rw [List.mem_singleton.1 hm]
      rfl

theorem length_gates (h : Ending c t core price emitted) : core.gates.length = emitted := by
  cases h <;> rfl

/-- An ending emits one gate more than it costs, but two nested relays five less. -/
theorem emitted_eq (h : Ending c t core price emitted) :
    if core.countP Move.isCnot3 = 2 then emitted + 5 = price else emitted = price + 1 := by
  cases h <;> rfl

end Ending

theorem Nested.ending (h : Nested g t a b run) (hone : 0 < run.length) (htwo : run.length ≤ 2) :
    ∃ price emitted, Ending a t run price emitted ∧ price + 9 = 6 * 2 ^ run.length := by
  cases h with
  | nil => cases hone
  | @cons x _ p _ _ _ inner =>
    cases inner with
    | nil => exact ⟨3, 4, .single b, rfl⟩
    | @cons y _ q _ _ _ inner =>
      cases inner with
      | nil => exact ⟨15, 10, .double b x, rfl⟩
      | cons =>
        simp only [List.length_cons] at htwo
        omega

theorem Relays.length_flatMap_gates (h : Relays relays) :
    (relays.flatMap Move.gates).length = 6 * relays.length := by
  induction relays with
  | nil => rfl
  | cons m relays ih =>
    obtain ⟨hm, hrest⟩ := List.forall_mem_cons.1 h
    cases m with
    | relay r =>
      have here := Move.length_gates_relay r
      rw [Move.relayCost] at here
      rw [List.flatMap_cons, List.length_append, ih hrest, here, List.length_cons]
      omega
    | _ => cases hm

theorem Ending.length_gates_complete (h : Ending c t core price emitted) (hr : Relays relays) :
    (complete (relays ++ core)).gates.length = 12 * relays.length + emitted := by
  rw [gates_complete hr h.terminals, List.length_append, List.length_append,
    hr.length_flatMap_gates, hr.inverse.length_flatMap_gates, h.length_gates, List.length_map,
    List.length_reverse]
  omega

end Path

namespace Graph

variable {g : Graph} {limit : Option Nat} {c t a b : Qubit} {relays : List Move} {last : Move}
  {p q : Path}

theorem Leads.places_visited (h : g.Leads c t relays a b) :
    a ∈ Path.visited c t relays ∧ b ∈ Path.visited c t relays := by
  induction h with
  | start => simp [Path.visited]
  | @hop relays a b x carried heading _ _ _ _ ih =>
    rw [Path.visited_concat, Carried.dest_relay]
    cases carried with
    | control => exact ⟨List.mem_concat_self, List.mem_append_left _ ih.2⟩
    | target => exact ⟨List.mem_append_left _ ih.1, List.mem_concat_self⟩

theorem Leads.exists_cab (h : g.Leads c t relays a b) (hrun : 0 < cabRun relays) :
    ∃ before x, relays = before ++ [.cab x a] ∧ g.Leads c t before x b ∧ g.adjacent x a = true ∧
      cabRun relays = cabRun before + 1 := by
  cases h with
  | start => cases hrun
  | @hop before x _ y carried heading h _ _ native =>
    rw [cabRun_concat] at hrun ⊢
    cases carried with
    | target => cases hrun
    | control =>
      cases heading with
      | against => cases hrun
      | along => exact ⟨before, x, rfl, h, native, rfl⟩

structure Found (g : Graph) (limit : Option Nat) (c t : Qubit) (relays : List Move) (a b : Qubit)
    (last : Move) : Prop where
  simple : g.Simple c t relays a b
  within : ∀ k ∈ limit, relays.length ≤ k
  ends : g.terminal? a b = some last

theorem mem_candidates (h : c ≠ t) (hc : c < g.size) (ht : t < g.size) :
    p ∈ g.candidates limit c t ↔ ∃ relays a b last, g.Found limit c t relays a b last ∧
      p ∈ offered (relays ++ [last]) := by
  rw [candidates, List.mem_flatMap, enumerate_eq g limit h hc ht]
  simp only [mem_pathsFrom_start_iff h hc ht]
  constructor
  · rintro ⟨_, ⟨relays, a, b, simple, within, hcoupled, rfl⟩, hp⟩
    exact ⟨relays, a, b, _, ⟨simple, within, terminal?_eq_some_iff.2 ⟨hcoupled, rfl⟩⟩, hp⟩
  · rintro ⟨relays, a, b, last, ⟨simple, within, ends⟩, hp⟩
    obtain ⟨hcoupled, rfl⟩ := terminal?_eq_some_iff.1 ends
    exact ⟨_, ⟨relays, a, b, simple, within, hcoupled, rfl⟩, hp⟩

namespace Found

variable (found : g.Found limit c t relays a b last)
include found

theorem roundTrip : Path.roundTrip (relays ++ [last]) = 12 * relays.length + last.cost :=
  Path.roundTrip_concat found.simple.leads.isRelays last (cost_terminal found.ends).1

theorem last_of_adjacent (edge : g.adjacent a b = true) : last = .nop a b := by
  rw [(terminal?_eq_some_iff.1 found.ends).2, if_pos edge]

theorem roundTrip_merged (hm : Path.mergeRelays? (relays ++ [last]) = some q) :
    q.roundTrip + 9 = 12 * (relays.length - cabRun relays) + 6 * 2 ^ cabRun relays ∧
      0 < cabRun relays ∧ g.adjacent a b = true := by
  obtain ⟨x, before, run, rfl, leads, nested, hne, edge, hrun, hall⟩ :=
    found.simple.leads.of_mergeRelays found.simple.start_apart found.ends hm
  have hpos := List.length_pos_of_ne_nil hne
  refine ⟨?_, hrun ▸ hpos, edge⟩
  rw [Path.roundTrip_nested leads.isRelays nested hne, ← hrun, ← hall, Nat.add_sub_cancel]

theorem exists_merged (edge : g.adjacent a b = true) (hrun : 0 < cabRun relays) :
    ∃ merged, Path.mergeRelays? (relays ++ [last]) = some merged := by
  have hlength := found.simple.leads.length_mergeRun.1
  rw [found.last_of_adjacent edge, Path.mergeRelays?, List.reverse_append]
  rcases heq : Path.mergeRun b a relays.reverse with ⟨_ | ⟨m, run⟩, left⟩
  · rw [← hlength, heq] at hrun
    cases hrun
  · exact ⟨left.reverse ++ m :: run, by simp [heq]⟩

/-- No path costs less than its relays, but for the discount of one merged relay. -/
theorem relays_le (hq : q ∈ offered (relays ++ [last])) :
    12 * relays.length ≤ q.roundTrip + 9 := by
  rcases mem_offered.1 hq with rfl | hm
  · rw [found.roundTrip]
    omega
  · obtain ⟨hcost, hpos, -⟩ := found.roundTrip_merged hm
    have hrun := cabRun_le relays
    have double : 12 * cabRun relays ≤ 6 * 2 ^ cabRun relays := by
      have half : cabRun relays - 1 < 2 ^ (cabRun relays - 1) := Nat.lt_two_pow_self
      have whole : 2 ^ cabRun relays = 2 * 2 ^ (cabRun relays - 1) := by
        rw [← Nat.pow_succ', Nat.succ_eq_add_one, Nat.sub_add_cancel hpos]
      omega
    omega

variable (hc : c < g.size) (ht : t < g.size)
include hc ht

theorem mem : relays ++ [last] ∈ g.candidates limit c t :=
  (mem_candidates found.simple.start_apart hc ht).2
    ⟨relays, a, b, last, found, mem_offered.2 (Or.inl rfl)⟩

theorem mem_merged (hm : Path.mergeRelays? (relays ++ [last]) = some q) :
    q ∈ g.candidates limit c t :=
  (mem_candidates found.simple.start_apart hc ht).2
    ⟨relays, a, b, last, found, mem_offered.2 (Or.inr hm)⟩

end Found

/-- One control relay that feeds a native CNOT is cheaper merged. -/
theorem Found.exists_cheaper_of_one (found : g.Found limit c t relays a b last) (hc : c < g.size)
    (ht : t < g.size) (edge : g.adjacent a b = true) (hrun : cabRun relays = 1) :
    ∃ q ∈ g.candidates limit c t, q.roundTrip < 12 * relays.length := by
  have hle := cabRun_le relays
  obtain ⟨merged, hm⟩ := found.exists_merged edge (hrun ▸ Nat.one_pos)
  obtain ⟨hcost, -, -⟩ := found.roundTrip_merged hm
  refine ⟨merged, found.mem_merged hc ht hm, ?_⟩
  rw [hrun] at hcost hle
  omega

/-- Before two control relays along edges the target may be taken back to where the second leads,
and the first may follow: their places are fresh, so they may be entered in the other order. -/
theorem Simple.carry_back {before : List Move} {x y : Qubit}
    (h : g.Simple c t (before ++ [.cab x y] ++ [.cab y a]) a b) (leads : g.Leads c t before x b)
    (leadsY : g.Leads c t (before ++ [.cab x y]) y b) (edge : g.adjacent a b = true) :
    g.Simple c t (before ++ [.tba b a]) x a ∧ y ∉ Path.visited c t (before ++ [.tba b a]) ∧
      y ≠ x ∧ y ≠ a := by
  obtain ⟨simpleX, openX⟩ := (h.before_hop leadsY).1.before_hop leads
  have hdistinct := h.distinct
  rw [Path.visited_concat, Path.visited_concat, List.append_assoc, List.nodup_append] at hdistinct
  obtain ⟨-, hya, hfresh⟩ := hdistinct
  have hya : y ≠ a := by simpa using hya
  have freshY : y ∉ Path.visited c t before := fun hmem => hfresh y hmem y (by simp) rfl
  have freshA : a ∉ Path.visited c t before := fun hmem => hfresh a hmem a (by simp) rfl
  obtain ⟨hx, hb⟩ := leads.places_visited
  have hax : a ≠ x := fun e => freshA (e ▸ hx)
  have hab : a ≠ b := fun e => freshA (e ▸ hb)
  have native : Relay.Native g (Carried.target.relay .against x b a) := edge
  refine ⟨?_, ?_, fun e => freshY (e ▸ hx), hya⟩
  · exact simpleX.hop openX freshA hax hab native
  · rw [Path.visited_concat, List.mem_append, List.mem_singleton, not_or]
    exact ⟨freshY, hya⟩

/-- Two control relays that feed a native CNOT can be exchanged for a target relay to the place that
the last one leads to. There the CNOT is performed at once, or behind one control relay that is
merged. -/
theorem Found.exists_cheaper_of_two (found : g.Found limit c t relays a b last) (hc : c < g.size)
    (ht : t < g.size) (edge : g.adjacent a b = true) (hrun : 2 ≤ cabRun relays) :
    ∃ q ∈ g.candidates limit c t, q.roundTrip < 12 * relays.length := by
  obtain ⟨simple, within, -⟩ := found
  obtain ⟨more, y, rfl, leadsY, edgeY, hrunY⟩ := simple.leads.exists_cab (by omega)
  obtain ⟨before, x, rfl, leadsX, edgeX, -⟩ := leadsY.exists_cab (by omega)
  obtain ⟨back, freshY, hyx, hya⟩ := simple.carry_back leadsX leadsY edge
  simp only [List.length_append, List.length_singleton] at within ⊢
  cases hend : g.terminal? x a with
  | some other =>
    have shorter : g.Found limit c t (before ++ [.tba b a]) x a other := by
      refine ⟨back, fun k hk => ?_, hend⟩
      have := within k hk
      rw [List.length_append, List.length_singleton]
      omega
    refine ⟨_, shorter.mem hc ht, ?_⟩
    have hflip := (cost_terminal hend).2
    rw [shorter.roundTrip, List.length_append, List.length_singleton]
    omega
  | none =>
    have native : Relay.Native g (Carried.control.relay .along x a y) := edgeX
    have forth : g.Simple c t (before ++ [.tba b a] ++ [.cab x y]) y a :=
      back.hop (terminal?_eq_none.1 hend) freshY hyx hya native
    have hends : g.terminal? y a = some (.nop y a) := by
      rw [terminal?, if_pos edgeY]
    have turned : g.Found limit c t (before ++ [.tba b a] ++ [.cab x y]) y a (.nop y a) := by
      refine ⟨forth, fun k hk => ?_, hends⟩
      simp only [List.length_append, List.length_singleton]
      exact within k hk
    have hone : cabRun (before ++ [.tba b a] ++ [.cab x y]) = 1 := by
      rw [cabRun_concat, cabRun_concat]
      rfl
    obtain ⟨q, hq, hlt⟩ := turned.exists_cheaper_of_one hc ht edgeY hone
    simp only [List.length_append, List.length_singleton] at hlt
    exact ⟨q, hq, hlt⟩

theorem Found.exists_cheaper (found : g.Found limit c t relays a b last) (hc : c < g.size)
    (ht : t < g.size) (edge : g.adjacent a b = true) (hrun : 0 < cabRun relays) :
    ∃ q ∈ g.candidates limit c t, q.roundTrip < 12 * relays.length := by
  rcases Nat.lt_or_ge 1 (cabRun relays) with htwo | hone
  · exact found.exists_cheaper_of_two hc ht edge htwo
  · exact found.exists_cheaper_of_one hc ht edge (Nat.le_antisymm hone hrun)

section Least

variable (h : c ≠ t) (hc : c < g.size) (ht : t < g.size)
include h hc ht

/-- A cheapest candidate consists of relays and one of the endings, and no control relay feeds a
native CNOT. -/
theorem exists_ending_of_least (hp : p ∈ g.candidates limit c t)
    (hleast : ∀ q ∈ g.candidates limit c t, p.roundTrip ≤ q.roundTrip) :
    ∃ relays a b core price emitted, p = relays ++ core ∧ g.Leads c t relays a b ∧
      Path.Ending a b core price emitted ∧ p.roundTrip = 12 * relays.length + price ∧
      (core = [.nop a b] → cabRun relays = 0) := by
  obtain ⟨relays, a, b, last, found, hoffered⟩ := (mem_candidates h hc ht).1 hp
  rcases mem_offered.1 hoffered with rfl | hm
  · have hcost := found.roundTrip
    obtain ⟨-, hlast⟩ := terminal?_eq_some_iff.1 found.ends
    split_ifs at hlast with edge
    · subst hlast
      refine ⟨relays, a, b, _, 0, 1, rfl, found.simple.leads, .native, hcost, fun _ => ?_⟩
      by_contra hrun
      obtain ⟨q, hq, hlt⟩ := found.exists_cheaper hc ht edge (Nat.pos_of_ne_zero hrun)
      have := hleast q hq
      rw [hcost] at this
      omega
    · subst hlast
      exact ⟨relays, a, b, _, 4, 5, rfl, found.simple.leads, .reversed, hcost, nofun⟩
  · obtain ⟨x, before, run, rfl, leads, nested, hne, edge, hrun, hall⟩ :=
      found.simple.leads.of_mergeRelays h found.ends hm
    have hpos := List.length_pos_of_ne_nil hne
    have hmerged := Path.roundTrip_nested leads.isRelays nested hne
    have htwo : run.length ≤ 2 := by
      by_contra hlong
      obtain ⟨k, hk⟩ : ∃ k, run.length = k + 3 := ⟨run.length - 3, by omega⟩
      have hbound : 12 * (k + 3) + 9 ≤ 6 * 2 ^ (k + 3) :=
        mergedBound_le_merged (k := k + 3) (Nat.succ_pos _)
      obtain ⟨q, hq, hlt⟩ := found.exists_cheaper hc ht edge (by omega)
      have hle := hleast q hq
      rw [hk] at hmerged
      omega
    obtain ⟨price, emitted, ending, hprice⟩ := nested.ending hpos htwo
    refine ⟨before, x, b, run, price, emitted, rfl, leads, ending, by omega, ?_⟩
    rintro rfl
    cases nested

/-- A candidate pays for a relay for each qubit in between on a shortest walk, but for the discount
of one merged relay. -/
theorem le_roundTrip_of_edist {d : Nat} (hd : g.coupling.edist c t = d)
    (hp : p ∈ g.candidates limit c t) : 12 * (d - 1) ≤ p.roundTrip + 9 := by
  obtain ⟨relays, a, b, last, found, hoffered⟩ := (mem_candidates h hc ht).1 hp
  have hprice := found.relays_le hoffered
  have hle := found.simple.leads.edist_le_succ found.ends
  rw [hd] at hle
  have : d ≤ relays.length + 1 := by exact_mod_cast hle
  omega

theorem candidates_of_reversed (hn : g.adjacent c t = false) (edge : g.adjacent t c = true) :
    g.candidates limit c t = [[.flip c t]] := by
  have hends : g.terminal? (g.searchStart c t).control (g.searchStart c t).target =
      some (.flip c t) := by
    simp [searchStart, terminal?, hn, edge]
  rw [candidates, enumerate_eq g limit h hc ht, pathsFrom_of_terminal hends]
  rfl

end Least

end Graph

end QubitRouting
