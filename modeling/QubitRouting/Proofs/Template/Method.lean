import QubitRouting.Proofs.Routing.Replacement
import QubitRouting.Proofs.Table.Entries
import QubitRouting.Proofs.Template.Gates

/-!
Matrices of methods that route every pair: all pairs have a method, and those with the hub share an
edge. The built-in matrices are such, and so is the matrix of every graph that has one. By such a
matrix the CNOT of every pair is performed in both styles.
-/

namespace QubitRouting.MethodMatrix

structure Sound (m : MethodMatrix) : Prop where
  total : ∀ c < templateSize, ∀ t < templateSize, c ≠ t → (m.method? c t).isSome
  to_hub : ∀ q < templateSize, ∀ r ∈ m.method? q hub, r.isRelay = false
  from_hub : ∀ q < templateSize, ∀ r ∈ m.method? hub q, r.isRelay = false

theorem sound_qx2 : qx2.Sound := ⟨by decide, by decide, by decide⟩

theorem sound_qx4 : qx4.Sound := ⟨by decide, by decide, by decide⟩

section OfGraph

variable {name : String} {g : Graph} {m : MethodMatrix} {c t : Qubit}

theorem method?_of_ofGraph (h : ofGraph name g = .ok m) (hc : c < templateSize)
    (ht : t < templateSize) : m.method? c t = if c = t then none else classify? g c t := by
  unfold ofGraph at h
  split_ifs at h
  split at h
  · cases h
  · obtain rfl := Except.ok.inj h
    simp [method?, hc, ht]

/-- No method of a graph routes a pair with the hub through it, since the hub has no edge to itself.
-/
theorem classify?_hub {r : RelayMethod}
    (h : classify? g c hub = some r ∨ classify? g hub c = some r) : r.isRelay = false := by
  have hloop := g.adjacent_self hub
  rcases h with h | h
  all_goals
    simp only [classify?, hloop, Bool.false_eq_true, if_false] at h
    split_ifs at h
    all_goals
      obtain rfl := Option.some.inj h
      rfl

theorem sound_of_ofGraph (h : ofGraph name g = .ok m) : m.Sound := by
  have hhub : hub < templateSize := by decide
  refine ⟨?_, ?_, ?_⟩
  · intro c hc t ht hct
    rw [method?_of_ofGraph h hc ht, if_neg hct]
    unfold ofGraph at h
    split_ifs at h
    split at h
    · cases h
    · next hfind =>
      have hpair := List.find?_eq_none.1 hfind (c, t) (Graph.mem_orderedPairs.2 ⟨hc, ht, hct⟩)
      cases hm : classify? g c t with
      | none => simp [hm] at hpair
      | some r => rfl
  · intro q hq r hr
    rw [method?_of_ofGraph h hq hhub, Option.mem_def] at hr
    split_ifs at hr
    exact classify?_hub (Or.inl hr)
  · intro q hq r hr
    rw [method?_of_ofGraph h hhub hq, Option.mem_def] at hr
    split_ifs at hr
    exact classify?_hub (Or.inr hr)

end OfGraph

section Gates

open Circuit (Replaces)

variable {R : Type} [CommRing R] {s : R} {matrix : GateKind → Matrix2 R} {m : MethodMatrix}
  {c t : Qubit}

theorem Sound.exists_method (hm : m.Sound) (hc : c < templateSize) (ht : t < templateSize)
    (hct : c ≠ t) : ∃ r, m.method? c t = some r ∧ m.method c t = .ok r := by
  obtain ⟨r, hr⟩ := Option.isSome_iff_exists.1 (hm.total c hc t ht hct)
  exact ⟨r, hr, by rw [method, hr]⟩

theorem Sound.apart_of_isRelay (hm : m.Sound) {r : RelayMethod} (hc : c < templateSize)
    (ht : t < templateSize) (hr : m.method? c t = some r) (hrelay : r.isRelay = true) :
    c ≠ hub ∧ t ≠ hub := by
  constructor
  · rintro rfl
    have := hm.from_hub t ht r hr
    simp [hrelay] at this
  · rintro rfl
    have := hm.to_hub c hc r hr
    simp [hrelay] at this

theorem turned_fit {n : Nat} (hct : c ≠ t) (hc : c < n) (ht : t < n) :
    ∀ g ∈ turned c t, g.Fits n := by
  have turn := Gate.Fits.hadamards hc ht
  refine List.forall_mem_append.2 ⟨List.forall_mem_append.2 ⟨turn, ?_⟩, turn⟩
  exact List.forall_mem_singleton.2 (.cnot hct.symm ht hc)

theorem edgeGates_replaces (hM : Standard s matrix) {r : RelayMethod} (hct : c ≠ t)
    (hc : c < templateSize) (ht : t < templateSize) (hr : m.method c t = .ok r)
    (hedge : r.isRelay = false) :
    ∃ gates, m.edgeGates c t = .ok gates ∧ Replaces matrix templateSize (.cnot c t) gates := by
  rw [edgeGates, hr, ok_bind]
  cases r with
  | direct => exact ⟨_, rfl, .self (.cnot hct hc ht)⟩
  | flipped => exact ⟨_, rfl, turned_fit hct hc ht, hM.run_turned hct⟩
  | _ => cases hedge

theorem swapGates_fit (m : MethodMatrix) {q : Qubit} (hq : q < templateSize) (hhub : q ≠ hub) :
    ∀ g ∈ m.swapGates q, g.Fits templateSize := by
  have hh : hub < templateSize := by decide
  have forth := Gate.Fits.cnot hhub hq hh
  have back := Gate.Fits.cnot hhub.symm hh hq
  have turn := Gate.Fits.hadamard hq
  have turnHub := Gate.Fits.hadamard hh
  unfold swapGates
  cases m.native q hub <;> simp [forth, back, turn, turnHub]

theorem hubTemplate_fit {r : RelayMethod} (hct : c ≠ t) (hc : c < templateSize)
    (ht : t < templateSize) (hhub : r.isRelay = true → c ≠ hub ∧ t ≠ hub) :
    ∀ g ∈ hubTemplate c t r, g.Fits templateSize := by
  have hh : hub < templateSize := by decide
  have turnc := Gate.Fits.hadamard hc
  have turnt := Gate.Fits.hadamard ht
  have turnHub := Gate.Fits.hadamard hh
  cases hrelay : r.isRelay with
  | false =>
    cases r with
    | direct => exact List.forall_mem_singleton.2 (.cnot hct hc ht)
    | flipped => exact turned_fit hct hc ht
    | _ => cases hrelay
  | true =>
    obtain ⟨hch, hth⟩ := hhub hrelay
    have toHub := Gate.Fits.cnot hch hc hh
    have ofHub := Gate.Fits.cnot hch.symm hh hc
    have toTarget := Gate.Fits.cnot hth.symm hh ht
    have ofTarget := Gate.Fits.cnot hth ht hh
    cases r with
    | direct => cases hrelay
    | flipped => cases hrelay
    | _ => simp [hubTemplate, turnc, turnt, turnHub, toHub, ofHub, toTarget, ofTarget]

theorem swapStyle_replaces (hM : Standard s matrix) (hm : m.Sound) {r : RelayMethod} (hct : c ≠ t)
    (hc : c < templateSize) (ht : t < templateSize) (hch : c ≠ hub) (hth : t ≠ hub) :
    ∃ gates, m.swapStyle r c t = .ok gates ∧ Replaces matrix templateSize (.cnot c t) gates := by
  have hh : hub < templateSize := by decide
  have swapc := swapGates_fit m hc hch
  have swapt := swapGates_fit m ht hth
  obtain ⟨toHub, hto?, hto⟩ := hm.exists_method hc hh hch
  obtain ⟨ofHub, hof?, hof⟩ := hm.exists_method hh ht hth.symm
  obtain ⟨into, hinto, fitInto, runInto⟩ :=
    edgeGates_replaces hM hch hc hh hto (hm.to_hub c hc toHub hto?)
  obtain ⟨out, hout, fitOut, runOut⟩ :=
    edgeGates_replaces hM hth.symm hh ht hof (hm.from_hub t ht ofHub hof?)
  have target : Replaces matrix templateSize (.cnot c t) (m.swapGates t ++ into ++ m.swapGates t) :=
    ⟨List.forall_mem_append.2 ⟨List.forall_mem_append.2 ⟨swapt, fitInto⟩, swapt⟩,
      hM.run_swap_target m hch hth hct runInto⟩
  have control : Replaces matrix templateSize (.cnot c t) (m.swapGates c ++ out ++ m.swapGates c) :=
    ⟨List.forall_mem_append.2 ⟨List.forall_mem_append.2 ⟨swapc, fitOut⟩, swapc⟩,
      hM.run_swap_control m hch hth hct runOut⟩
  cases r with
  | forwardBackward =>
    refine ⟨_, ?_, target⟩
    rw [swapStyle, hinto, ok_bind]
    rfl
  | _ =>
    refine ⟨_, ?_, control⟩
    rw [swapStyle, hout, ok_bind]
    · rfl
    · exact nofun

theorem cnotGates_replaces (hM : Standard s matrix) (hm : m.Sound) (variant : Variant) (hct : c ≠ t)
    (hc : c < templateSize) (ht : t < templateSize) :
    ∃ gates, m.cnotGates variant c t = .ok gates ∧
      Replaces matrix templateSize (.cnot c t) gates := by
  obtain ⟨r, hr?, hr⟩ := hm.exists_method hc ht hct
  have hhub := hm.apart_of_isRelay hc ht hr?
  rw [cnotGates, hr, ok_bind]
  cases variant with
  | template => exact ⟨_, rfl, hubTemplate_fit hct hc ht hhub, hM.run_hubTemplate hct hhub⟩
  | swap =>
    cases hrelay : r.isRelay with
    | false =>
      simp only [Bool.false_eq_true, if_false]
      exact edgeGates_replaces hM hct hc ht hr hrelay
    | true =>
      simp only [if_true]
      obtain ⟨hch, hth⟩ := hhub hrelay
      exact swapStyle_replaces hM hm hct hc ht hch hth

end Gates

end QubitRouting.MethodMatrix
