import Mathlib.Data.Set.Function
import QubitRouting.Proofs.Circuit.Depth
import QubitRouting.Proofs.Circuit.Editing
import QubitRouting.Proofs.Simulation.Relocation

/-!
Circuits with renamed lines. A sweep and a schedule see of the gates only which of them share a line
and which cancel, and a renaming that keeps the lines of a circuit apart keeps both. So they go the
same way through the renamed gates.
-/

namespace QubitRouting

/-- A map of gates that keeps which of the gates share a line and which cancel. -/
structure Faithful (F : Gate → Gate) (gates : List Gate) : Prop where
  touches : ∀ g ∈ gates, ∀ h ∈ gates, (F g).touches (F h) = g.touches h
  cancels : ∀ g ∈ gates, ∀ h ∈ gates, (F g).cancels (F h) = g.cancels h

namespace Faithful

variable {F : Gate → Gate} {gates hs K : List Gate} {g : Gate}

theorem mono (h : Faithful F gates) (hsub : hs ⊆ gates) : Faithful F hs where
  touches x hx y hy := h.touches x (hsub hx) y (hsub hy)
  cancels x hx y hy := h.cancels x (hsub hx) y (hsub hy)

theorem cancelWith?_map (h : Faithful F (g :: K)) :
    cancelWith? (F g) (K.map F) = (cancelWith? g K).map (List.map F) := by
  induction K with
  | nil => rfl
  | cons p K ih =>
    have hp : p ∈ g :: p :: K := List.mem_cons_of_mem g List.mem_cons_self
    have hrest : g :: K ⊆ g :: p :: K := List.cons_subset_cons g (List.subset_cons_self p K)
    rw [List.map_cons, cancelWith?, cancelWith?, h.touches p hp g List.mem_cons_self,
      h.cancels p hp g List.mem_cons_self, ih (h.mono hrest)]
    split_ifs
    · rfl
    · rfl
    · rw [Option.map_map, Option.map_map]
      rfl

theorem absorb_map (h : Faithful F (g :: K)) : absorb (K.map F) (F g) = (absorb K g).map F := by
  rw [absorb, absorb, h.cancelWith?_map]
  cases cancelWith? g K <;> rfl

theorem sweep_map (h : Faithful F (gates ++ K)) :
    (gates.map F).foldl absorb (K.map F) = (gates.foldl absorb K).map F := by
  induction gates generalizing K with
  | nil => rfl
  | cons g gates ih =>
    have hfirst : g :: K ⊆ g :: gates ++ K :=
      List.cons_subset_cons g (List.subset_append_right gates K)
    have hrest : gates ++ absorb K g ⊆ g :: gates ++ K := by
      intro x hx
      rcases List.mem_append.1 hx with hx | hx
      · exact List.mem_cons_of_mem g (List.mem_append_left K hx)
      · rcases mem_of_mem_absorb hx with rfl | hx
        · exact List.mem_cons_self
        · exact List.mem_cons_of_mem g (List.mem_append_right gates hx)
    rw [List.map_cons, List.foldl_cons, List.foldl_cons, (h.mono hfirst).absorb_map,
      ih (h.mono hrest)]

theorem keptGates_map (h : Faithful F gates) :
    keptGates (gates.map F) = (keptGates gates).map F := by
  rw [← gates.append_nil] at h
  rw [keptGates, keptGates, List.map_reverse, ← h.sweep_map, List.map_nil]

end Faithful

namespace Gate

variable {f b : Qubit → Qubit} {g h : Gate} {gates : List Gate} {lines : Nat}

theorem mapLines_back (hb : ∀ q ∈ g.lines, b (f q) = q) : (g.mapLines f).mapLines b = g := by
  obtain ⟨kind, controls, targets⟩ := g
  obtain ⟨hcontrols, htargets⟩ := List.forall_mem_append.1 hb
  have hcontrol : ∀ c ∈ controls, ({ c with line := b (f c.line) } : Control) = id c := by
    intro c hc
    rw [hcontrols c.line (List.mem_map_of_mem hc)]
    rfl
  simp only [mapLines, List.map_map, mk.injEq, true_and]
  exact ⟨(List.map_congr_left hcontrol).trans (List.map_id controls),
    (List.map_congr_left htargets).trans (List.map_id targets)⟩

section Apart

variable (hf : Set.InjOn f {q | q < lines})
include hf

theorem touches_mapLines (hg : g.Fits lines) (hh : h.Fits lines) :
    (g.mapLines f).touches (h.mapLines f) = g.touches h := by
  rw [Bool.eq_iff_iff, touches_eq_true_iff, touches_eq_true_iff, lines_mapLines, lines_mapLines]
  constructor
  · rintro ⟨_, hleft, hright⟩
    obtain ⟨q, hq, rfl⟩ := List.mem_map.1 hleft
    obtain ⟨p, hp, himage⟩ := List.mem_map.1 hright
    rw [hf (hh.inside p hp) (hg.inside q hq) himage] at hp
    exact ⟨q, hq, hp⟩
  · rintro ⟨q, hq, hp⟩
    exact ⟨f q, List.mem_map_of_mem hq, List.mem_map_of_mem hp⟩

theorem mapLines_inj (hg : g.Fits lines) (hh : h.Fits lines) :
    g.mapLines f = h.mapLines f ↔ g = h := by
  refine ⟨fun himage => ?_, congrArg _⟩
  have hback := hf.leftInvOn_invFunOn
  rw [← mapLines_back fun q hq => hback (hg.inside q hq), himage,
    mapLines_back fun q hq => hback (hh.inside q hq)]

theorem cancels_mapLines (hg : g.Fits lines) (hh : h.Fits lines) :
    (g.mapLines f).cancels (h.mapLines f) = g.cancels h := by
  have hinverse : (h.mapLines f).inverse = h.inverse.mapLines f := rfl
  have hkind : (h.mapLines f).kind = h.kind := rfl
  rw [Bool.eq_iff_iff, cancels_iff, cancels_iff, hinverse, hkind, mapLines_inj hf hg hh.inverse]

theorem faithful_mapLines (hgates : ∀ g ∈ gates, g.Fits lines) :
    Faithful (Gate.mapLines f) gates where
  touches g hg h hh := touches_mapLines hf (hgates g hg) (hgates h hh)
  cancels g hg h hh := cancels_mapLines hf (hgates g hg) (hgates h hh)

end Apart

theorem isCnot_mapLines (f : Qubit → Qubit) (g : Gate) : (g.mapLines f).isCnot = g.isCnot := by
  have hkind : (g.mapLines f).isToffoli = g.isToffoli := rfl
  rw [isCnot, isCnot, hkind, mapLines, List.length_map]

theorem pair?_mapLines (f : Qubit → Qubit) (g : Gate) :
    (g.mapLines f).pair? = g.pair?.map (Prod.map f f) := by
  rw [pair?, pair?, cnot?_mapLines, Option.map_map, Option.map_map]
  rfl

end Gate

namespace Histogram

variable {h : Histogram} {f : Qubit → Qubit} {i j lines : Nat}

def renamed (h : Histogram) (lines : Nat) (f : Qubit → Qubit) : Histogram :=
  ⟨lines, h.pairs.map (Prod.map f f)⟩

theorem count_renamed (inside : h.Inside) (hf : Set.InjOn f {q | q < h.lines}) (hi : i < h.lines)
    (hj : j < h.lines) : (h.renamed lines f).count (f i) (f j) = h.count i j := by
  rw [count, renamed, List.count, List.countP_map]
  refine List.countP_congr fun p hp => ?_
  obtain ⟨hfst, hsnd⟩ := inside p hp
  simp [Prod.ext_iff, hf.eq_iff hfst hi, hf.eq_iff hsnd hj]

theorem count_renamed_eq_zero (inside : h.Inside) {a b : Qubit}
    (hno : ∀ i < h.lines, ∀ j < h.lines, (f i, f j) ≠ (a, b)) :
    (h.renamed lines f).count a b = 0 := by
  rw [count, List.count_eq_zero]
  intro hmem
  obtain ⟨p, hp, himage⟩ := List.mem_map.1 hmem
  exact hno p.1 (inside p hp).1 p.2 (inside p hp).2 himage

end Histogram

namespace Circuit

variable {c d : Circuit} {f : Qubit → Qubit} {lines : Nat}

structure Relabelled (lines : Nat) (f : Qubit → Qubit) (c d : Circuit) : Prop where
  back : ∀ b : Qubit → Qubit, (∀ q < c.lines, b (f q) = q) → d.mapLines c.lines b = .ok c
  gateCount : d.gateCount = c.gateCount
  cnotCount : d.cnotCount = c.cnotCount
  depth : ∃ depth, c.depth? = some depth ∧ d.depth? = some depth
  cleaned : ∃ clean moved, c.removeDuplicates = .ok clean ∧ clean.mapLines lines f = .ok moved ∧
    d.removeDuplicates = .ok moved
  counts : ∃ h k, Histogram.ofCircuit? c = some h ∧ Histogram.ofCircuit? d = some k ∧
    (∀ i < c.lines, ∀ j < c.lines, k.count (f i) (f j) = h.count i j) ∧
    ∀ a b, (∀ i < c.lines, ∀ j < c.lines, (f i, f j) ≠ (a, b)) → k.count a b = 0

section Apart

variable (hv : c.Valid) (hf : Set.InjOn f {q | q < c.lines}) (hin : ∀ q < c.lines, f q < lines)
include hv hf hin

theorem Valid.mapLines : ∀ g ∈ c.gates, (g.mapLines f).Fits lines := by
  intro g hg
  have hsub : {q | q ∈ g.lines} ⊆ {q | q < c.lines} := (hv g hg).inside
  exact (hv g hg).mapLines_iff.2 ⟨hf.mono hsub, fun q hq => hin q (hsub hq)⟩

theorem relabelled_mapLines (h : c.mapLines lines f = .ok d) : Relabelled lines f c d := by
  obtain ⟨hmoved, rfl⟩ := mapLines_eq_ok_iff.1 h
  have hfaithful := Gate.faithful_mapLines hf hv
  have hd : (⟨c.name, lines, c.gates.map (Gate.mapLines f)⟩ : Circuit).Valid :=
    List.forall_mem_map.2 hmoved
  constructor
  case back =>
    intro b hb
    have hback : ∀ g ∈ c.gates, (g.mapLines f).mapLines b = id g := fun g hg =>
      Gate.mapLines_back fun q hq => hb q ((hv g hg).inside q hq)
    have hgates : (c.gates.map (Gate.mapLines f)).map (Gate.mapLines b) = c.gates := by
      rw [List.map_map]
      exact (List.map_congr_left hback).trans (List.map_id _)
    refine mapLines_eq_ok_iff.2 ⟨?_, by rw [hgates]⟩
    rw [← List.forall_mem_map, hgates]
    exact hv
  case gateCount => exact List.length_map _
  case cnotCount =>
    rw [cnotCount, List.countP_map]
    exact List.countP_congr fun g _ => by rw [Function.comp_apply, Gate.isCnot_mapLines]
  case depth =>
    have hsame := depth?_of_chainLengths hd (chainLengths_map hfaithful.touches)
    exact ⟨c.depth, depth?_of_fit hv, hsame⟩
  case cleaned =>
    have hclean := removeDuplicates_eq hv
    have hkept : ({ c with gates := keptGates c.gates } : Circuit).Valid :=
      hv.sublist (sublist_of_deletions (deletions_keptGates _))
    refine ⟨_, _, hclean, mapLines_eq_ok_iff.2 ⟨hkept.mapLines hf hin, rfl⟩, ?_⟩
    rw [removeDuplicates_eq hd, hfaithful.keptGates_map]
  case counts =>
    have inside := Histogram.inside_of_valid hv
    refine ⟨_, _, Histogram.ofCircuit?_eq hv, Histogram.ofCircuit?_eq hd, ?_⟩
    have hpairs : (c.gates.map (Gate.mapLines f)).filterMap Gate.pair? =
        (c.gates.filterMap Gate.pair?).map (Prod.map f f) := by
      rw [List.filterMap_map, List.map_filterMap]
      exact congrArg (List.filterMap · c.gates) (funext (Gate.pair?_mapLines f))
    rw [hpairs]
    exact ⟨fun i hi j hj => Histogram.count_renamed inside hf hi hj,
      fun a b hno => Histogram.count_renamed_eq_zero inside hno⟩

end Apart

theorem Valid.mapLines_refused (hv : c.Valid) {g : Gate} (hg : g ∈ c.gates)
    (hbad : ¬ Set.InjOn f {q | q ∈ g.lines} ∨ ∃ q ∈ g.lines, lines ≤ f q) :
    ∃ e, c.mapLines lines f = .error e := by
  cases h : c.mapLines lines f with
  | error e => exact ⟨e, rfl⟩
  | ok d =>
    obtain ⟨hapart, hin⟩ := (hv g hg).mapLines_iff.1 ((mapLines_eq_ok_iff.1 h).1 g hg)
    rcases hbad with hjoined | ⟨q, hq, hout⟩
    · exact absurd hapart hjoined
    · exact absurd (hin q hq) (Nat.not_lt.2 hout)

/-- Renaming the lines of a circuit to different lines below a bound succeeds and can be undone. It
changes no number of gates and not the depth, it may come before or after the cancelling pairs are
taken away, and interactions are counted on the renamed lines. Renaming that joins two lines of a
gate or sends one outside fails and leaves the circuit as it was. -/
theorem mapLines_equivariant (hv : c.Valid) (lines : Nat) (f : Qubit → Qubit) :
    (Set.InjOn f {q | q < c.lines} → (∀ q < c.lines, f q < lines) →
      ∃ d, c.mapLines lines f = .ok d ∧ Relabelled lines f c d) ∧
    ((∃ g ∈ c.gates, ¬ Set.InjOn f {q | q ∈ g.lines} ∨ ∃ q ∈ g.lines, lines ≤ f q) →
      ∃ e, c.mapLines lines f = .error e ∧
        c.edit (.mapLines lines f) = (c, some (.refused e))) := by
  constructor
  · intro hf hin
    have hmoved := mapLines_eq_ok_iff.2 ⟨hv.mapLines hf hin, rfl⟩
    exact ⟨_, hmoved, relabelled_mapLines hv hf hin hmoved⟩
  · rintro ⟨g, hg, hbad⟩
    obtain ⟨e, he⟩ := hv.mapLines_refused hg hbad
    refine ⟨e, he, ?_⟩
    rw [edit, he]
    rfl

def meeting : Circuit where
  name := "meeting"
  lines := 3
  gates := [.cnot 0 2, .hadamard 1, .hadamard 1, .cnot 2 1]

theorem mapLines_of_meeting : meeting.Valid ∧
    (∃ d, meeting.mapLines 5 (4 - 2 * ·) = .ok d ∧ Relabelled 5 (4 - 2 * ·) meeting d ∧
      d.gates = [.cnot 4 0, .hadamard 2, .hadamard 2, .cnot 0 2]) ∧
    meeting.mapLines 5 (· % 2) = .error (.repeated 0 "t") ∧
    meeting.edit (.mapLines 5 (· % 2)) = (meeting, some (.refused (.repeated 0 "t"))) ∧
    ∃ e, meeting.edit (.mapLines 4 (· + 2)) = (meeting, some (.refused e)) := by
  have hv : meeting.Valid := by decide
  have hapart : Set.InjOn (4 - 2 * ·) {q | q < meeting.lines} := by
    intro p (hp : p < 3) q (hq : q < 3) (h : 4 - 2 * p = 4 - 2 * q)
    omega
  have hjoined : ¬ Set.InjOn (· % 2) {q | q ∈ (Gate.cnot 0 2).lines} := by
    intro h
    have hsame : 0 = 2 := h (by decide : 0 ∈ (Gate.cnot 0 2).lines) (by decide : 2 ∈ _) rfl
    cases hsame
  obtain ⟨d, hd, hrelabelled⟩ :=
    (mapLines_equivariant hv 5 (4 - 2 * ·)).1 hapart (by decide)
  obtain ⟨e, he, hkept⟩ :=
    (mapLines_equivariant hv 5 (· % 2)).2 ⟨.cnot 0 2, by decide, .inl hjoined⟩
  obtain ⟨e', -, hout⟩ :=
    (mapLines_equivariant hv 4 (· + 2)).2 ⟨.cnot 0 2, by decide, .inr ⟨2, by decide, by decide⟩⟩
  have hgates : meeting.mapLines 5 (4 - 2 * ·) =
      .ok ⟨"meeting", 5, [.cnot 4 0, .hadamard 2, .hadamard 2, .cnot 0 2]⟩ := by decide
  have hfault : meeting.mapLines 5 (· % 2) = .error (.repeated 0 "t") := by decide
  obtain rfl := Except.ok.inj (hd.symm.trans hgates)
  obtain rfl := Except.error.inj (he.symm.trans hfault)
  exact ⟨hv, ⟨_, hd, hrelabelled, rfl⟩, hfault, hkept, e', hout⟩

end Circuit

end QubitRouting
