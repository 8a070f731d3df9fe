import QubitRouting.Device.Graph
import QubitRouting.Proofs.Relay.Emission

/-!
The gates of whole paths. Relays in front of a path and behind it contribute their own gates, and
every gate of a path is a gate of one of its moves. Three-qubit relays that follow one another
perform the CNOT of the outermost.
-/

namespace QubitRouting

theorem Graph.ne_of_adjacent {g : Graph} {c t : Qubit} (h : g.adjacent c t = true) : c ≠ t := by
  rintro rfl
  simp [g.adjacent_self] at h

theorem Relay.gates_fit {size : Nat} (r : Relay) (hne : r.source ≠ r.dest) (hs : r.source < size)
    (hd : r.dest < size) : ∀ g ∈ r.gates, g.Fits size := by
  have edge : (Gate.cnot r.edge.1 r.edge.2).Fits size := by
    unfold Relay.edge
    cases r.heading with
    | along => exact .cnot hne hs hd
    | against => exact .cnot hne.symm hd hs
  have turn := Gate.Fits.hadamards hs hd
  unfold Relay.gates
  simp only
  split_ifs
  · simp only [List.forall_mem_append, List.forall_mem_singleton]
    exact ⟨⟨⟨turn, edge⟩, turn⟩, edge⟩
  · simp only [List.forall_mem_append, List.forall_mem_singleton]
    exact ⟨⟨⟨edge, turn⟩, edge⟩, turn⟩

structure Move.Fits (size : Nat) (m : Move) : Prop where
  distinct : m.qubits.Nodup
  inside : ∀ q ∈ m.qubits, q < size

namespace Move

theorem Fits.inverse {size : Nat} {m : Move} (h : m.Fits size) : m.inverse.Fits size := by
  have same : m.inverse.qubits = m.qubits := by cases m <;> rfl
  exact ⟨same ▸ h.distinct, same ▸ h.inside⟩

theorem Fits.gates {size : Nat} {m : Move} (h : m.Fits size) : ∀ g ∈ m.gates, g.Fits size := by
  obtain ⟨distinct, inside⟩ := h
  cases m with
  | cnot3 a b c =>
    simp only [qubits, List.nodup_cons, List.mem_cons, List.not_mem_nil, or_false, not_or,
      forall_eq_or_imp, forall_eq] at distinct inside
    obtain ⟨⟨hab, -⟩, hbc, -⟩ := distinct
    obtain ⟨ha, hb, hc⟩ := inside
    have first := Gate.Fits.cnot hab ha hb
    have second := Gate.Fits.cnot hbc hb hc
    intro g hg
    simp only [Move.gates, List.mem_cons, List.not_mem_nil, or_false] at hg
    rcases hg with rfl | rfl | rfl | rfl
    exacts [first, second, first, second]
  | nop a b =>
    simp only [qubits, List.nodup_cons, List.mem_cons, List.not_mem_nil, or_false,
      forall_eq_or_imp, forall_eq] at distinct inside
    exact List.forall_mem_singleton.2 (Gate.Fits.cnot distinct.1 inside.1 inside.2)
  | flip a b =>
    simp only [qubits, List.nodup_cons, List.mem_cons, List.not_mem_nil, or_false,
      forall_eq_or_imp, forall_eq] at distinct inside
    have turn := Gate.Fits.hadamards inside.1 inside.2
    have back := Gate.Fits.cnot (Ne.symm distinct.1) inside.2 inside.1
    intro g hg
    simp only [Move.gates, List.mem_append, List.mem_singleton] at hg
    rcases hg with (hg | rfl) | hg
    exacts [turn g hg, back, turn g hg]
  | relay r =>
    simp only [qubits, List.nodup_cons, List.mem_cons, List.not_mem_nil, or_false,
      forall_eq_or_imp, forall_eq] at distinct inside
    exact r.gates_fit distinct.1 inside.1 inside.2

end Move

namespace Path

def Relays (p : Path) : Prop := ∀ m ∈ p, m.isTerminal = false

def Terminals (p : Path) : Prop := ∀ m ∈ p, m.isTerminal = true

theorem gatesFrom_relay (window : Option (List Gate)) (r : Relay) (p : Path) :
    gatesFrom window (.relay r :: p) = window.getD [] ++ r.gates ++ gates p := rfl

theorem gates_relays_append {p : Path} (hp : p.Relays) (q : Path) :
    gates (p ++ q) = p.flatMap Move.gates ++ gates q := by
  induction p with
  | nil => rfl
  | cons m p ih =>
    obtain ⟨hm, hrest⟩ := List.forall_mem_cons.1 hp
    cases m with
    | relay r =>
      rw [List.cons_append, gates, gatesFrom_relay, ih hrest]
      simp [Move.gates]
    | _ => cases hm

theorem gatesFrom_append_relays (window : Option (List Gate)) (p : Path) {q : Path}
    (hq : q.Relays) : gatesFrom window (p ++ q) = gatesFrom window p ++ q.flatMap Move.gates := by
  induction p generalizing window with
  | nil =>
    cases q with
    | nil => simp [gatesFrom]
    | cons m q =>
      obtain ⟨hm, hrest⟩ := List.forall_mem_cons.1 hq
      cases m with
      | relay r =>
        have h := gates_relays_append hrest []
        rw [List.append_nil] at h
        rw [List.nil_append, gatesFrom_relay, h]
        simp [gates, gatesFrom, Move.gates]
      | _ => cases hm
  | cons m p ih =>
    cases m with
    | cnot3 a b c => cases window <;> simp [gatesFrom, ih]
    | _ => simp [gatesFrom, ih]

theorem mem_gatesFrom {window : Option (List Gate)} {p : Path} {g : Gate}
    (h : g ∈ gatesFrom window p) : g ∈ window.getD [] ∨ ∃ m ∈ p, g ∈ m.gates := by
  induction p generalizing window with
  | nil => exact Or.inl h
  | cons m p ih =>
    cases m with
    | cnot3 a b c =>
      cases window with
      | none =>
        rcases ih h with h | ⟨m, hm, h⟩
        · exact Or.inr ⟨_, List.mem_cons_self, h⟩
        · exact Or.inr ⟨m, List.mem_cons_of_mem _ hm, h⟩
      | some w =>
        rcases ih h with h | ⟨m, hm, h⟩
        · simp only [Option.getD_some, List.cons_append, List.mem_cons, List.mem_append] at h ⊢
          rcases h with rfl | h | rfl | h
          · exact Or.inr ⟨_, Or.inl rfl, List.mem_cons_self⟩
          · exact Or.inl h
          · exact Or.inr ⟨_, Or.inl rfl, List.mem_cons_self⟩
          · exact Or.inl h
        · exact Or.inr ⟨m, List.mem_cons_of_mem _ hm, h⟩
    | _ =>
      simp only [gatesFrom, List.mem_append] at h
      rcases h with (h | h) | h
      · exact Or.inl h
      · exact Or.inr ⟨_, List.mem_cons_self, h⟩
      · rcases ih h with h | ⟨m, hm, h⟩
        · cases h
        · exact Or.inr ⟨m, List.mem_cons_of_mem _ hm, h⟩

theorem mem_gates {p : Path} {g : Gate} (h : g ∈ gates p) : ∃ m ∈ p, g ∈ m.gates := by
  rcases mem_gatesFrom h with h | h
  · cases h
  · exact h

theorem fits_complete {size : Nat} {p : Path} (h : ∀ m ∈ p, m.Fits size) :
    ∀ m ∈ p.complete, m.Fits size := by
  intro m hm
  rcases List.mem_append.1 hm with hm | hm
  · exact h m hm
  · simp only [undoing, List.mem_map, List.mem_filter, List.mem_reverse] at hm
    obtain ⟨r, ⟨hr, -⟩, rfl⟩ := hm
    exact (h r hr).inverse

theorem gates_complete_fit {size : Nat} {p : Path} (h : ∀ m ∈ p, m.Fits size) :
    ∀ g ∈ gates p.complete, g.Fits size := by
  intro g hg
  obtain ⟨m, hm, hg⟩ := mem_gates hg
  exact (fits_complete h m hm).gates g hg

section Complete

variable {p core : Path}

theorem Relays.inverse (hp : p.Relays) : Path.Relays (p.reverse.map Move.inverse) := by
  intro m hm
  simp only [List.mem_map, List.mem_reverse] at hm
  obtain ⟨m, hm, rfl⟩ := hm
  cases m with
  | relay r => rfl
  | _ => cases hp _ hm

theorem complete_relays_append (hp : p.Relays) (hc : core.Terminals) :
    complete (p ++ core) = p ++ core ++ p.reverse.map Move.inverse := by
  have hc' : core.reverse.filter (!·.isTerminal) = [] := by
    rw [List.filter_eq_nil_iff]
    intro m hm
    simp [hc m (List.mem_reverse.1 hm)]
  have hp' : p.reverse.filter (!·.isTerminal) = p.reverse := by
    rw [List.filter_eq_self]
    intro m hm
    simp [hp m (List.mem_reverse.1 hm)]
  rw [complete, undoing, List.reverse_append, List.filter_append, hc', hp', List.nil_append]

theorem gates_complete (hp : p.Relays) (hc : core.Terminals) :
    gates (complete (p ++ core)) =
      p.flatMap Move.gates ++ gates core ++ (p.reverse.map Move.inverse).flatMap Move.gates := by
  rw [complete_relays_append hp hc, List.append_assoc, gates_relays_append hp,
    List.append_assoc, gates, gatesFrom_append_relays none core hp.inverse]
  rfl

end Complete

/-- Three-qubit relays to `t` over native edges, innermost first, of which the outermost starts at
`a` and the innermost leads to `b`. -/
inductive Nested (g : Graph) (t a : Qubit) : Qubit → Path → Prop where
  | nil : Nested g t a a []
  | cons {b x p} : g.adjacent b x = true → b ≠ t → x ≠ t → Nested g t a b p →
      Nested g t a x (.cnot3 b x t :: p)

inductive Core (g : Graph) (c t : Qubit) : Path → Prop where
  | native : g.adjacent c t = true → Core g c t [.nop c t]
  | reversed : g.adjacent t c = true → Core g c t [.flip c t]
  | nested {b p} : p ≠ [] → Nested g t c b p → g.adjacent b t = true → Core g c t p

theorem Nested.terminals {g : Graph} {t a b : Qubit} {p : Path} (h : Nested g t a b p) :
    p.Terminals := by
  induction h with
  | nil => exact fun m hm => by cases hm
  | cons _ _ _ _ ih => exact List.forall_mem_cons.2 ⟨rfl, ih⟩

theorem Core.terminals {g : Graph} {c t : Qubit} {p : Path} (h : Core g c t p) :
    p.Terminals := by
  cases h with
  | native _ => exact List.forall_mem_singleton.2 rfl
  | reversed _ => exact List.forall_mem_singleton.2 rfl
  | nested _ h _ => exact h.terminals

theorem Nested.fits {g : Graph} {t a b : Qubit} {p : Path} (h : Nested g t a b p)
    (ht : t < g.size) : ∀ m ∈ p, m.Fits g.size := by
  induction h with
  | nil => exact fun m hm => by cases hm
  | @cons b x p edge hbt hxt _ ih =>
    have hbx := Graph.ne_of_adjacent edge
    obtain ⟨hb, hx⟩ := Graph.lt_of_adjacent edge
    refine List.forall_mem_cons.2 ⟨⟨?_, ?_⟩, ih⟩
    · simp [Move.qubits, hbx, hbt, hxt]
    · simp [Move.qubits, hb, hx, ht]

theorem Core.fits {g : Graph} {c t : Qubit} {p : Path} (h : Core g c t p) :
    ∀ m ∈ p, m.Fits g.size := by
  cases h with
  | native edge =>
    have hct := Graph.ne_of_adjacent edge
    obtain ⟨hc, ht⟩ := Graph.lt_of_adjacent edge
    exact List.forall_mem_singleton.2 ⟨by simp [Move.qubits, hct], by simp [Move.qubits, hc, ht]⟩
  | reversed edge =>
    have htc := Graph.ne_of_adjacent edge
    obtain ⟨ht, hc⟩ := Graph.lt_of_adjacent edge
    exact List.forall_mem_singleton.2 ⟨by simp [Move.qubits, htc.symm],
      by simp [Move.qubits, hc, ht]⟩
  | nested _ h edge => exact h.fits (Graph.lt_of_adjacent edge).2

section Meaning

variable {R : Type} [CommRing R] {s : R} {matrix : GateKind → Matrix2 R} {g : Graph}

theorem Nested.run_gatesFrom (hM : Standard s matrix) {t a b : Qubit} {p : Path}
    (h : Nested g t a b p) {window : List Gate}
    (hw : Wave.run matrix window = Wave.run matrix [.cnot b t]) :
    Wave.run matrix (gatesFrom (some window) p) = Wave.run matrix [.cnot a t] := by
  induction h generalizing window with
  | nil => exact hw
  | cons hbx hbt hxt _ ih => exact ih (hM.nested_window (Graph.ne_of_adjacent hbx) hbt hxt hw)

theorem Nested.run_gates (hM : Standard s matrix) {t a b : Qubit} {p : Path}
    (h : Nested g t a b p) (hp : p ≠ []) :
    Wave.run matrix (gates p) = Wave.run matrix [.cnot a t] := by
  cases h with
  | nil => exact absurd rfl hp
  | cons hxb hxt hbt h =>
    have hw := hM.nested_window (Graph.ne_of_adjacent hxb) hxt hbt
      (rfl : Wave.run matrix [.cnot b t] = _)
    exact h.run_gatesFrom hM hw

theorem Core.run_gates (hM : Standard s matrix) {c t : Qubit} {p : Path} (h : Core g c t p) :
    Wave.run matrix (gates p) = Wave.run matrix [.cnot c t] := by
  cases h with
  | native _ => rfl
  | reversed h => exact hM.run_flip (Graph.ne_of_adjacent h).symm
  | nested hp h _ => exact h.run_gates hM hp

end Meaning

end Path

end QubitRouting
