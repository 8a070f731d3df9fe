import QubitRouting.Proofs.Outcome
import QubitRouting.Proofs.Relay.Path
import QubitRouting.Proofs.Simulation.Register

/-!
Routing gate by gate. When every gate is replaced by gates of the device that act like it, so is the
circuit; the first gate that is refused decides the error.
-/

namespace QubitRouting

namespace Gate

def refusal (g : Gate) : RoutingError := .unsupportedGate g.text g.controls.length

theorem Fits.mono {m n : Nat} {g : Gate} (h : g.Fits m) (hmn : m ≤ n) : g.Fits n :=
  ⟨h.targets_ne, h.distinct, fun q hq => Nat.lt_of_lt_of_le (h.inside q hq) hmn⟩

theorem interaction_of_crowded {g : Gate} (h : 2 ≤ g.controls.length) :
    g.interaction = .error g.refusal := by
  obtain ⟨kind, controls, targets⟩ := g
  rcases controls with _ | ⟨c, _ | ⟨d, rest⟩⟩
  · exact absurd h (by simp)
  · exact absurd h (by simp)
  · rfl

theorem interaction_of_single {g : Gate} (hc : g.controls.length = 1) (ht : g.targets.length = 1) :
    ∃ c t, g = ⟨g.kind, [c], [t]⟩ ∧ g.interaction = .ok (c, t) := by
  obtain ⟨kind, controls, targets⟩ := g
  obtain ⟨c, rfl⟩ := List.length_eq_one_iff.1 hc
  obtain ⟨t, rfl⟩ := List.length_eq_one_iff.1 ht
  exact ⟨c, t, rfl, rfl⟩

theorem interaction_eq_ok_iff {g : Gate} {c : Control} {t : Qubit} :
    g.interaction = .ok (c, t) ↔ g.controls = [c] ∧ ∃ rest, g.targets = t :: rest := by
  obtain ⟨kind, controls, targets⟩ := g
  rcases controls with _ | ⟨d, _ | ⟨e, controls⟩⟩ <;> rcases targets with _ | ⟨q, targets⟩ <;>
    simp [interaction, control?, target?]

theorem Fits.pair {n : Nat} {g : Gate} (h : g.Fits n) {c : Control} {t : Qubit}
    {rest : List Qubit} (hc : g.controls = [c]) (ht : g.targets = t :: rest) :
    c.line < n ∧ t < n ∧ c.line ≠ t := by
  obtain ⟨-, distinct, inside⟩ := h
  rw [lines, hc, ht] at distinct inside
  simp only [List.map_cons, List.map_nil, List.cons_append, List.nil_append, List.nodup_cons,
    List.mem_cons, not_or, forall_eq_or_imp] at distinct inside
  exact ⟨inside.1, inside.2.1, distinct.1.1⟩

theorem Fits.single {n : Nat} {kind : GateKind} {c : Control} {t : Qubit}
    (h : Fits n ⟨kind, [c], [t]⟩) : c.line < n ∧ t < n ∧ c.line ≠ t := h.pair rfl rfl

end Gate

theorem RoutedCircuit.circuit_of_ofCircuit {c : Circuit} {skipped : Option SkipReason}
    {out : RoutedCircuit} (h : ofCircuit c skipped = .ok out) :
    out.circuit = c ∧ out.skipped = skipped := by
  unfold ofCircuit at h
  split at h
  · cases h
  · obtain rfl := Except.ok.inj h
    exact ⟨rfl, rfl⟩

namespace Circuit

variable {R : Type} [Add R] [Mul R] {matrix : GateKind → Matrix2 R} {size : Nat}
  {f : Gate → Except RoutingError (List Gate)}

def Replaces (matrix : GateKind → Matrix2 R) (size : Nat) (g : Gate) (part : List Gate) : Prop :=
  (∀ h ∈ part, h.Fits size) ∧ Wave.run matrix part = Wave.run matrix [g]

theorem Replaces.fits_flatten {gates : List Gate} {parts : List (List Gate)}
    (h : List.Forall₂ (Replaces matrix size) gates parts) : ∀ g ∈ parts.flatten, g.Fits size := by
  induction h with
  | nil => exact fun g hg => by cases hg
  | cons hr _ ih =>
    rw [List.flatten_cons]
    exact List.forall_mem_append.2 ⟨hr.1, ih⟩

theorem Replaces.self {g : Gate} (h : g.Fits size) : Replaces matrix size g [g] :=
  ⟨List.forall_mem_singleton.2 h, rfl⟩

theorem Replaces.wrap {R : Type} [CommRing R] {s : R} {matrix : GateKind → Matrix2 R}
    (hM : Standard s matrix) {kind : GateKind} {c : Control} {t : Qubit} {gates : List Gate}
    (hc : c.line < size) (hct : c.line ≠ t)
    (h : Replaces matrix size ⟨kind, [⟨c.line, true⟩], [t]⟩ gates) :
    Replaces matrix size ⟨kind, [c], [t]⟩ (c.wrap gates) := by
  refine ⟨?_, hM.run_wrap hct h.2⟩
  have hnot : (Gate.not c.line).Fits size := .not hc
  unfold Control.wrap
  split_ifs
  · exact h.1
  · refine List.forall_mem_append.2 ⟨List.forall_mem_cons.2 ⟨hnot, h.1⟩, ?_⟩
    exact List.forall_mem_singleton.2 hnot

theorem replacement_ok {g : Gate} {part : List Gate} (hf : f g = .ok part)
    (hfit : ∀ h ∈ part, h.Fits size) : replacement size f g = .ok part := by
  have hnone : part.findSome? (Gate.fault? size) = none := by
    rw [List.findSome?_eq_none_iff]
    exact fun h hm => Gate.fault?_eq_none_iff.2 (hfit h hm)
  rw [replacement, hf, ok_bind, hnone]
  rfl

theorem of_replacement {g : Gate} {part : List Gate} (h : replacement size f g = .ok part) :
    f g = .ok part ∧ ∀ x ∈ part, x.Fits size := by
  obtain ⟨gates, hf, h⟩ := bind_eq_ok_iff.1 h
  split at h
  · cases h
  · next hnone =>
    obtain rfl := Except.ok.inj h
    rw [List.findSome?_eq_none_iff] at hnone
    exact ⟨hf, fun x hx => Gate.fault?_eq_none_iff.1 (hnone x hx)⟩

theorem depth?_of_fit {c : Circuit} (h : c.Valid) : c.depth? = some c.depth := by
  rw [depth?, if_pos]
  rw [List.all_eq_true]
  intro g hg
  simpa using (h g hg).inside

variable {c : Circuit} {out : RoutedCircuit}

/-- The gates of a routed circuit were emitted for the gates of the circuit. -/
theorem of_routeBy (hl : c.lines ≤ size) (h : c.routeBy size f = .ok out) :
    out.circuit.lines = size ∧ ∀ x ∈ out.circuit.gates, x.Fits size ∧
      ∃ gate ∈ c.gates, ∃ part, f gate = .ok part ∧ x ∈ part := by
  rw [Circuit.routeBy, if_neg (Nat.not_lt.2 hl)] at h
  obtain ⟨routed, hrouted, h⟩ := bind_eq_ok_iff.1 h
  obtain ⟨parts, hparts, hrouted⟩ := bind_eq_ok_iff.1 hrouted
  obtain rfl := Except.ok.inj hrouted
  rw [(RoutedCircuit.circuit_of_ofCircuit h).1]
  refine ⟨rfl, ?_⟩
  intro x hx
  obtain ⟨part, hpart, hx⟩ := List.mem_flatten.1 hx
  obtain ⟨gate, hgate, hreplaced⟩ := exists_of_mem_mapM hparts hpart
  obtain ⟨hf, hfit⟩ := of_replacement hreplaced
  exact ⟨hfit x hx, gate, hgate, part, hf, hx⟩

theorem exists_of_routeBy_unreachable {v w : Qubit}
    (h : c.routeBy size f = .error (.unreachable v w)) :
    c.lines ≤ size ∧ ∃ gate ∈ c.gates, f gate = .error (.unreachable v w) := by
  have hcounted : ∀ (d : Circuit) skipped,
      RoutedCircuit.ofCircuit d skipped ≠ .error (.unreachable v w) := by
    intro d skipped
    unfold RoutedCircuit.ofCircuit
    split <;> exact fun hbad => by cases hbad
  rw [Circuit.routeBy] at h
  split_ifs at h with hl
  · exact absurd h (hcounted c _)
  · refine ⟨Nat.not_lt.1 hl, ?_⟩
    rcases bind_eq_error_iff.1 h with h | ⟨routed, -, h⟩
    · rcases bind_eq_error_iff.1 h with h | ⟨parts, -, h⟩
      · obtain ⟨gate, hgate, h⟩ := exists_of_mapM_error h
        rcases bind_eq_error_iff.1 h with h | ⟨part, -, h⟩
        · exact ⟨gate, hgate, h⟩
        · split at h <;> cases h
      · cases h
    · exact absurd h (hcounted routed none)

theorem of_routeBy_single {gate : Gate} (hl : c.lines ≤ size) (hc : c.gates = [gate])
    (h : c.routeBy size f = .ok out) : f gate = .ok out.circuit.gates := by
  rw [Circuit.routeBy, if_neg (Nat.not_lt.2 hl), replaceGates, hc, List.mapM_cons] at h
  obtain ⟨routed, hrouted, h⟩ := bind_eq_ok_iff.1 h
  obtain ⟨parts, hparts, hrouted⟩ := bind_eq_ok_iff.1 hrouted
  obtain ⟨part, hpart, hparts⟩ := bind_eq_ok_iff.1 hparts
  obtain rfl := Except.ok.inj hparts
  obtain rfl := Except.ok.inj hrouted
  rw [(RoutedCircuit.circuit_of_ofCircuit h).1]
  simpa using (of_replacement hpart).1

/-- What replaces the gates one by one is the routed circuit. -/
theorem routeBy_of_parts (hl : c.lines ≤ size) {parts : List (List Gate)}
    (hparts : c.gates.mapM (replacement size f) = .ok parts)
    (fits : ∀ g ∈ parts.flatten, g.Fits size) :
    ∃ out, c.routeBy size f = .ok out ∧ out.circuit = ⟨c.name, size, parts.flatten⟩ ∧
      out.gateCount = parts.flatten.length ∧ out.skipped = none := by
  let routed : Circuit := ⟨c.name, size, parts.flatten⟩
  have hdepth : routed.depth? = some routed.depth := depth?_of_fit fits
  have hroute : c.routeBy size f = .ok ⟨routed, routed.gateCount, routed.depth, none⟩ := by
    rw [routeBy, if_neg (Nat.not_lt.2 hl), replaceGates, hparts, ok_bind]
    change RoutedCircuit.ofCircuit routed none = _
    rw [RoutedCircuit.ofCircuit, hdepth]
  exact ⟨_, hroute, rfl, rfl, rfl⟩

/-- A circuit is routed when each of its gates is replaced, be it by the gates of another one. -/
theorem routeBy_performs (performed : Gate → Gate) (hl : c.lines ≤ size)
    (h : ∀ g ∈ c.gates, (performed g).Fits size ∧
      ∃ part, f g = .ok part ∧ Replaces matrix size (performed g) part) :
    ∃ out, c.routeBy size f = .ok out ∧ out.circuit.lines = size ∧ out.skipped = none ∧
      ActAlike matrix size out.circuit.gates (c.gates.map performed) := by
  have hparts : ∀ g ∈ c.gates, ∃ part, replacement size f g = .ok part ∧
      Replaces matrix size (performed g) part := by
    intro g hg
    obtain ⟨-, part, hf, hr⟩ := h g hg
    exact ⟨part, replacement_ok hf hr.1, hr⟩
  obtain ⟨parts, hmap, hall⟩ := mapM_ok_of_forall hparts
  have hall := List.forall₂_map_left_iff.2 hall
  have fits := Replaces.fits_flatten hall
  have alike : ActAlike matrix size parts.flatten (c.gates.map performed) := by
    have hrun := Wave.run_flatten matrix (hall.imp fun _ _ hr => hr.2)
    exact .of_run_eq fits (List.forall_mem_map.2 fun g hg => (h g hg).1) hrun
  obtain ⟨out, hout, hcircuit, -, hskipped⟩ := routeBy_of_parts hl hmap fits
  exact ⟨out, hout, by rw [hcircuit], hskipped, by rwa [hcircuit]⟩

theorem routeBy_ok (hl : c.lines ≤ size) (hv : c.Valid)
    (h : ∀ g ∈ c.gates, ∃ part, f g = .ok part ∧ Replaces matrix size g part) :
    ∃ out, c.routeBy size f = .ok out ∧ out.circuit.lines = size ∧ out.skipped = none ∧
      ActAlike matrix size out.circuit.gates c.gates := by
  rw [← List.map_id c.gates]
  exact routeBy_performs id hl fun g hg => ⟨(hv g hg).mono hl, h g hg⟩

theorem routeBy_error {before after : List Gate} {g : Gate} {e : RoutingError}
    (hl : c.lines ≤ size) (hc : c.gates = before ++ g :: after)
    (h : ∀ b ∈ before, ∃ part, f b = .ok part ∧ ∀ gate ∈ part, gate.Fits size)
    (hg : f g = .error e) : c.routeBy size f = .error e := by
  have hbefore : ∀ b ∈ before, ∃ part, replacement size f b = .ok part := by
    intro b hb
    obtain ⟨part, hf, hfit⟩ := h b hb
    exact ⟨part, replacement_ok hf hfit⟩
  have herror : replacement size f g = .error e := by
    rw [replacement, hg, error_bind]
  rw [routeBy, if_neg (Nat.not_lt.2 hl), replaceGates, hc, mapM_error_of_first hbefore herror,
    error_bind, error_bind]

theorem routeBy_refused {rewritten : Gate → Bool} (hl : c.lines ≤ size)
    (hrefused : ∀ g ∈ c.gates, rewritten g = true → 2 ≤ g.controls.length →
      f g = .error g.refusal)
    (hrouted : ∀ g ∈ c.gates, (rewritten g = true → g.controls.length ≤ 1) →
      ∃ part, f g = .ok part ∧ Replaces matrix size g part) {first : Gate}
    (hfirst : c.gates.find? (fun g => rewritten g && 2 ≤ g.controls.length) = some first) :
    c.routeBy size f = .error first.refusal := by
  obtain ⟨hbad, before, after, hc, hbefore⟩ := List.find?_eq_some_iff_append.1 hfirst
  rw [Bool.and_eq_true, decide_eq_true_eq] at hbad
  have hmem : first ∈ c.gates := List.mem_of_find?_eq_some hfirst
  refine routeBy_error hl hc (fun b hb => ?_) (hrefused first hmem hbad.1 hbad.2)
  have hfew : rewritten b = true → b.controls.length ≤ 1 := by
    intro hb'
    have hgood := hbefore b hb
    simp only [hb', Bool.true_and, Bool.not_eq_true', decide_eq_false_iff_not] at hgood
    omega
  obtain ⟨part, hf, hr⟩ := hrouted b (hc ▸ List.mem_append_left _ hb) hfew
  exact ⟨part, hf, hr.1⟩

/-- Routing that refuses the gates to be rewritten with too many controls, and replaces all others
by gates that act alike. -/
theorem routeBy_meaning (matrix : GateKind → Matrix2 R) (rewritten : Gate → Bool)
    (hl : c.lines ≤ size) (hv : c.Valid)
    (hrefused : ∀ g ∈ c.gates, rewritten g = true → 2 ≤ g.controls.length →
      f g = .error g.refusal)
    (hrouted : ∀ g ∈ c.gates, (rewritten g = true → g.controls.length ≤ 1) →
      ∃ part, f g = .ok part ∧ Replaces matrix size g part) :
    ((∃ e, c.routeBy size f = .error e) ↔
      ∃ g ∈ c.gates, rewritten g = true ∧ 2 ≤ g.controls.length) ∧
    (∀ first, c.gates.find? (fun g => rewritten g && 2 ≤ g.controls.length) = some first →
      c.routeBy size f = .error first.refusal) ∧
    ((∀ g ∈ c.gates, rewritten g = true → g.controls.length ≤ 1) →
      ∃ out, c.routeBy size f = .ok out ∧ out.circuit.lines = size ∧ out.skipped = none ∧
        ActAlike matrix size out.circuit.gates c.gates) := by
  have hrefuses : ∀ first,
      c.gates.find? (fun g => rewritten g && 2 ≤ g.controls.length) = some first →
      c.routeBy size f = .error first.refusal :=
    fun first hfirst => routeBy_refused hl hrefused hrouted hfirst
  have hroutes := fun hfew : ∀ g ∈ c.gates, rewritten g = true → g.controls.length ≤ 1 =>
    routeBy_ok hl hv fun g hg => hrouted g hg (hfew g hg)
  refine ⟨⟨?_, ?_⟩, hrefuses, hroutes⟩
  · rintro ⟨e, he⟩
    by_contra hno
    obtain ⟨out, hout, -⟩ := hroutes fun g hg hkind => by
      by_contra hmany
      exact hno ⟨g, hg, hkind, by omega⟩
    rw [hout] at he
    cases he
  · rintro ⟨g, hg, hkind, htwo⟩
    have hfound : (c.gates.find? fun g => rewritten g && 2 ≤ g.controls.length).isSome := by
      rw [List.find?_isSome]
      exact ⟨g, hg, by simpa [hkind] using htwo⟩
    obtain ⟨first, hfirst⟩ := Option.isSome_iff_exists.1 hfound
    exact ⟨_, hrefuses first hfirst⟩

end Circuit

end QubitRouting
