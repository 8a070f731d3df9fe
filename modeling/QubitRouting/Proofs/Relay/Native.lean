import QubitRouting.Proofs.Search.Meaning

/-!
Gates that a device performs natively. The gates of a routed path are gates without controls and
CNOTs on native edges: relays and their undoing use the edge that the search has found, and nested
three-qubit relays the edges of their run and the last edge to the target.
-/

namespace QubitRouting

/-- No controls, or a CNOT on a native edge. -/
def Gate.Elementary (g : Graph) (gate : Gate) : Prop :=
  gate.controls = [] ∨ ∃ a b, gate = .cnot a b ∧ g.adjacent a b = true

/-- A NOT with a control has one control and one target, on a native edge. -/
def Gate.Native (g : Graph) (gate : Gate) : Prop :=
  gate.isToffoli = true → gate.controls = [] ∨
    ∃ control target, gate.controls = [control] ∧ gate.targets = [target] ∧
      g.adjacent control.line target = true

/-- A NOT with controls has one control, with a native edge to the first of its targets. -/
def Gate.NativeFirst (g : Graph) (gate : Gate) : Prop :=
  gate.isToffoli = true → gate.controls = [] ∨
    ∃ control target rest, gate.controls = [control] ∧ gate.targets = target :: rest ∧
      g.adjacent control.line target = true

def Gate.Rootless (gate : Gate) : Prop := ∀ adjoint, gate.kind = .v adjoint → gate.controls = []

instance (gate : Gate) : Decidable gate.Rootless :=
  inferInstanceAs (Decidable (∀ adjoint, gate.kind = .v adjoint → gate.controls = []))

namespace Gate

variable {g : Graph} {gate : Gate}

theorem isCnot_iff : gate.isCnot = true ↔ gate.isToffoli = true ∧ gate.controls.length = 1 := by
  simp [isCnot]

theorem Elementary.native (h : gate.Elementary g) : gate.Native g := by
  intro _
  rcases h with h | ⟨a, b, rfl, hab⟩
  · exact .inl h
  · exact .inr ⟨⟨a, true⟩, b, rfl, rfl, hab⟩

theorem Elementary.nativeFirst (h : gate.Elementary g) : gate.NativeFirst g := by
  intro hnot
  rcases h.native hnot with hc | ⟨control, target, hc, ht, hadj⟩
  · exact .inl hc
  · exact .inr ⟨control, target, [], hc, ht, hadj⟩

theorem Elementary.rootless (h : gate.Elementary g) : gate.Rootless := by
  intro adjoint hkind
  rcases h with h | ⟨a, b, rfl, -⟩
  · exact h
  · cases hkind

theorem NativeFirst.native (h : gate.NativeFirst g)
    (hone : gate.isCnot = true → gate.targets.length = 1) : gate.Native g := by
  intro hnot
  rcases h hnot with hc | ⟨control, target, rest, hc, ht, hadj⟩
  · exact .inl hc
  · have hlength := hone (by simp [isCnot, hnot, hc])
    obtain rfl : rest = [] := by simpa [ht] using hlength
    exact .inr ⟨control, target, hc, ht, hadj⟩

end Gate

variable {g : Graph} {a b c t : Qubit}

theorem Gate.Elementary.hadamard (g : Graph) (q : Qubit) : (Gate.hadamard q).Elementary g :=
  .inl rfl

theorem Gate.Elementary.cnot (h : g.adjacent a b = true) : (Gate.cnot a b).Elementary g :=
  .inr ⟨a, b, rfl, h⟩

theorem Gate.Elementary.hadamards (g : Graph) (a b : Qubit) :
    ∀ gate ∈ QubitRouting.hadamards a b, gate.Elementary g := by
  rw [QubitRouting.hadamards, List.forall_mem_cons, List.forall_mem_singleton]
  exact ⟨.hadamard g a, .hadamard g b⟩

theorem Gate.Elementary.wrap {control : Control} {gates : List Gate}
    (h : ∀ gate ∈ gates, gate.Elementary g) : ∀ gate ∈ control.wrap gates, gate.Elementary g := by
  have hnot : (Gate.not control.line).Elementary g := .inl rfl
  rw [Control.wrap]
  split_ifs
  · exact h
  · rw [List.forall_mem_append, List.forall_mem_cons, List.forall_mem_singleton]
    exact ⟨⟨hnot, h⟩, hnot⟩

theorem Relay.Native.elementary {r : Relay} (h : r.Native g) :
    ∀ gate ∈ r.gates, gate.Elementary g := by
  have turn := Gate.Elementary.hadamards g r.source r.dest
  have edge := Gate.Elementary.cnot h
  rw [Relay.gates]
  split_ifs
  · simp only [List.forall_mem_append, List.forall_mem_singleton]
    exact ⟨⟨⟨turn, edge⟩, turn⟩, edge⟩
  · simp only [List.forall_mem_append, List.forall_mem_singleton]
    exact ⟨⟨⟨edge, turn⟩, edge⟩, turn⟩

namespace Path

variable {p core : Path}

theorem Nested.elementary_gatesFrom (h : Nested g t a b p) {window : List Gate}
    (hw : ∀ gate ∈ window, gate.Elementary g) :
    ∀ gate ∈ gatesFrom (some window) p, gate.Elementary g := by
  induction h generalizing window with
  | nil => exact hw
  | cons hbx _ _ _ ih =>
    have edge := Gate.Elementary.cnot hbx
    apply ih
    simp only [List.forall_mem_append, List.forall_mem_cons]
    exact ⟨⟨edge, hw⟩, edge, hw⟩

/-- The innermost relay of a run leads to the edge to the target. -/
theorem Nested.elementary (h : Nested g t a b p) (hp : p ≠ []) (hbt : g.adjacent b t = true) :
    ∀ gate ∈ gates p, gate.Elementary g := by
  cases h with
  | nil => exact absurd rfl hp
  | @cons a b p hab _ _ h =>
    have first := Gate.Elementary.cnot hab
    have second := Gate.Elementary.cnot hbt
    apply h.elementary_gatesFrom
    simp only [Move.gates, List.forall_mem_cons, List.not_mem_nil, false_implies, implies_true,
      and_true]
    exact ⟨first, second, first, second⟩

theorem Core.elementary (h : Core g c t core) : ∀ gate ∈ gates core, gate.Elementary g := by
  cases h with
  | native edge => exact List.forall_mem_singleton.2 (.cnot edge)
  | reversed edge =>
    have turn := Gate.Elementary.hadamards g c t
    change ∀ gate ∈ hadamards c t ++ [.cnot t c] ++ hadamards c t ++ [], gate.Elementary g
    simp only [List.append_nil, List.forall_mem_append, List.forall_mem_singleton]
    exact ⟨⟨turn, .cnot edge⟩, turn⟩
  | nested hne h edge => exact h.elementary hne edge

end Path

namespace Graph

variable {c₀ t₀ : Qubit} {p : Path}

theorem Routes.elementary (h : g.Routes c₀ t₀ p) :
    ∀ gate ∈ p.complete.gates, gate.Elementary g := by
  obtain ⟨relays, core, c, t, leads, hcore, rfl⟩ := h
  have native := leads.native
  rw [Path.gates_complete leads.isRelays hcore.terminals]
  simp only [List.forall_mem_append, List.mem_flatMap, List.mem_map, List.mem_reverse]
  refine ⟨⟨?_, hcore.elementary⟩, ?_⟩
  · rintro gate ⟨m, hm, hgate⟩
    obtain ⟨r, rfl, hr, -⟩ := native m hm
    exact hr.elementary gate hgate
  · rintro gate ⟨_, ⟨m, hm, rfl⟩, hgate⟩
    obtain ⟨r, rfl, hr, -⟩ := native m hm
    have undone : r.inverse.Native g := hr
    exact undone.elementary gate hgate

end Graph

end QubitRouting
