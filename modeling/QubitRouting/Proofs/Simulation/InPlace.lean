import Mathlib.Data.List.Forall2
import QubitRouting.Proofs.Outcome
import QubitRouting.Proofs.Simulation.Relocation
import QubitRouting.Simulation.Complex

/-!
The action of a gate in place, against its definition out of place. A register is overwritten pair
by pair, in one round for every index. Each amplitude is overwritten in one round at most, that of
the lower index of its pair, and every round reads the amplitudes that stood there before the first.
Nothing is asked of addition and multiplication.
-/

namespace QubitRouting.Register

variable {R : Type} [Add R] [Mul R]

def amplitudeAfter? (m : Matrix2 R) (controls : List Control) (target : Qubit) (old : Register R)
    (k : Nat) : Option R :=
  if Fires controls k then
    if k.testBit target then do
      return m.a10 * (← old[withLine target false k]?) + m.a11 * (← old[k]?)
    else do
      return m.a00 * (← old[k]?) + m.a01 * (← old[withLine target true k]?)
  else old[k]?

def actOutOfPlace? (m : Matrix2 R) (controls : List Control) (old : Register R)
    (target : Qubit) : Option (Register R) :=
  ((List.range old.size).mapM (amplitudeAfter? m controls target old)).map List.toArray

def Overwrites (controls : List Control) (target : Qubit) (i k : Nat) : Prop :=
  i.testBit target = false ∧ Fires controls i ∧ (k = i ∨ k = withLine target true i)

/-- What round `i` makes of a register that was `old` before the first round: nothing, or it
overwrites two amplitudes, which it finds as they were. -/
inductive Round (m : Matrix2 R) (controls : List Control) (target : Qubit) (old : Register R)
    (i : Nat) : Register R → Register R → Prop
  | idle {r} (none : ∀ k, ¬ Overwrites controls target i k) : Round m controls target old i r r
  | pair {r : Register R} {a b : R} (low : Overwrites controls target i i)
      (high : Overwrites controls target i (withLine target true i))
      (first : r[i]? = some a) (second : r[withLine target true i]? = some b)
      (first_old : old[i]? = some a) (second_old : old[withLine target true i]? = some b) :
      Round m controls target old i r
        ((r.setIfInBounds i (m.a00 * a + m.a01 * b)).setIfInBounds (withLine target true i)
          (m.a10 * a + m.a11 * b))

structure PairByPair (m : Matrix2 R) (controls : List Control) (target : Qubit)
    (old : Register R) : Prop where
  round : ∀ i < old.size, ∃ before after, afterRounds? m controls target old i = some before ∧
    afterRounds? m controls target old (i + 1) = some after ∧
    Round m controls target old i before after
  overwritten : ∀ i k, Overwrites controls target i k ↔
    Fires controls k ∧ i = withLine target false k
  last : actOn? m controls old target = afterRounds? m controls target old old.size

section Lines

variable {target : Qubit} {controls : List Control} {i k : Nat}

theorem withLine_of_eq {value : Bool} (h : k.testBit target = value) :
    withLine target value k = k := if_pos h

theorem withLine_of_ne {value : Bool} (h : k.testBit target ≠ value) :
    withLine target value k = flipLine target k := if_neg h

theorem withLine_true_of_low (h : i.testBit target = false) :
    withLine target true i = flipLine target i := withLine_of_ne (by simp [h])

theorem overwrites_iff (ht : target ∉ controls.map Control.line) :
    Overwrites controls target i k ↔ Fires controls k ∧ i = withLine target false k := by
  constructor
  · rintro ⟨low, hf, rfl | rfl⟩
    · exact ⟨hf, (withLine_of_eq low).symm⟩
    · rw [withLine_true_of_low low]
      refine ⟨(fires_flipLine ht i).2 hf, ?_⟩
      rw [withLine_of_ne (by simp [low]), flipLine_flipLine]
  · rintro ⟨hf, rfl⟩
    by_cases hk : k.testBit target = false
    · rw [withLine_of_eq hk]
      exact ⟨hk, hf, Or.inl rfl⟩
    · rw [withLine_of_ne hk]
      have low : (flipLine target k).testBit target = false := by simpa using hk
      refine ⟨low, (fires_flipLine ht k).2 hf, Or.inr ?_⟩
      rw [withLine_true_of_low low, flipLine_flipLine]

end Lines

variable {m : Matrix2 R} {controls : List Control} {target : Qubit} {r r' : Register R}
  {ψ : Wave R} {n : Nat}

theorem amplitudeAfter?_eq (h : r.Holds ψ) {k : Nat} (hk : k < r.size)
    (hflip : flipLine target k < r.size) :
    amplitudeAfter? m controls target r k = some (Wave.actOn m controls target ψ k) := by
  unfold amplitudeAfter? Wave.actOn
  by_cases hf : Fires controls k
  · rw [if_pos hf, if_pos hf]
    by_cases hb : k.testBit target = true
    · rw [if_pos hb, if_pos hb, withLine_of_ne (by simp [hb]), h.getElem?_eq hk,
        h.getElem?_eq hflip]
      rfl
    · rw [if_neg hb, if_neg hb, withLine_of_ne hb, h.getElem?_eq hk, h.getElem?_eq hflip]
      rfl
  · rw [if_neg hf, if_neg hf, h.getElem?_eq hk]

theorem actOutOfPlace?_eq (hr : r.size = lineIndex n) (hq : target < n) (h : r.Holds ψ)
    (hsize : r'.size = r.size) (h' : r'.Holds (Wave.actOn m controls target ψ)) :
    actOutOfPlace? m controls r target = some r' := by
  have amplitudes : (List.range r.size).mapM (amplitudeAfter? m controls target r) =
      some r'.toList := by
    rw [mapM_eq_some_iff]
    refine List.forall₂_iff_get.2 ⟨by simp [hsize], fun k hk hk' => ?_⟩
    have hk : k < r.size := by simpa using hk
    have hflip : flipLine target k < r.size := hr ▸ flipLine_lt (hr ▸ hk) hq
    simpa [h' k (hsize.symm ▸ hk)] using amplitudeAfter?_eq h hk hflip
  rw [actOutOfPlace?, amplitudes]
  rfl

section Target

variable (hn : n ≤ indexBits) (hr : r.size = lineIndex n) (hq : target < n)
  (hc : ∀ c ∈ controls, c.line < n) (ht : target ∉ controls.map Control.line)
include hn hr hq hc ht

/-- A round finds the amplitudes of its pair as they were: only the pairs with a lower index below
its own have been overwritten. -/
theorem exists_round (m : Matrix2 R) {i : Nat} (hi : i < r.size) :
    ∃ before after, afterRounds? m controls target r i = some before ∧
      afterRounds? m controls target r (i + 1) = some after ∧
      Round m controls target r i before after := by
  obtain ⟨ψ, hψ⟩ := exists_holds (Nat.zero_lt_of_lt hi)
  obtain ⟨before, hrounds, hsize, hholds⟩ :=
    afterRounds?_holds (m := m) hn hr hq hc ht hψ (Nat.le_of_lt hi)
  have next : afterRounds? m controls target r (i + 1) =
      actAt? m controls target before i := by
    rw [afterRounds?] at hrounds ⊢
    rw [Nat.fold_succ, hrounds]
    rfl
  have hbits : ∀ c ∈ controls, c.line < indexBits := fun c hm => Nat.lt_of_lt_of_le (hc c hm) hn
  by_cases hpair : i.testBit target = false ∧ Fires controls i
  · obtain ⟨low, hf⟩ := hpair
    have hhigh := withLine_true_of_low low
    have hj : flipLine target i < r.size := hr ▸ flipLine_lt (hr ▸ hi) hq
    have hi' : i < before.size := hsize.symm ▸ hi
    have hj' : flipLine target i < before.size := hsize.symm ▸ hj
    obtain ⟨hfirst, hsecond⟩ := partly_lower m controls ψ low
    have hfirst' : before[i] = ψ i := (hholds i hi').trans hfirst
    have hsecond' : before[flipLine target i] = ψ (flipLine target i) :=
      (hholds _ hj').trans hsecond
    have hfires : fires? i controls = some true := by simp [fires?_eq hbits, hf]
    refine ⟨before, _, hrounds, next.trans (actAt?_of_fires low hfires hi' hj'), ?_⟩
    rw [hfirst', hsecond', ← hhigh]
    refine .pair ⟨low, hf, Or.inl rfl⟩ ⟨low, hf, Or.inr rfl⟩ ?_ ?_ (hψ.getElem?_eq hi) ?_
    · rw [Array.getElem?_eq_getElem hi', hfirst']
    · rw [hhigh, Array.getElem?_eq_getElem hj', hsecond']
    · rw [hhigh, hψ.getElem?_eq hj]
  · refine ⟨before, before, hrounds, next.trans ?_, .idle fun k hk => hpair ⟨hk.1, hk.2.1⟩⟩
    cases hb : i.testBit target with
    | true => simp [actAt?, hb]
    | false =>
      have hidle : ¬ Fires controls i := fun hf => hpair ⟨hb, hf⟩
      simp [actAt?, hb, fires?_eq hbits, hidle]

theorem actOn?_in_place (m : Matrix2 R) : ∃ r', actOn? m controls r target = some r' ∧
    r'.size = lineIndex n ∧ actOutOfPlace? m controls r target = some r' ∧
    PairByPair m controls target r := by
  obtain ⟨ψ, hψ⟩ := exists_holds (hr ▸ Nat.two_pow_pos n : 0 < r.size)
  obtain ⟨r', hact, hsize, hholds⟩ := actOn?_holds (m := m) hn hr hq hc ht hψ
  refine ⟨r', hact, hsize.trans hr, actOutOfPlace?_eq hr hq hψ hsize hholds, ?_⟩
  have hindex : target < indexBits := Nat.lt_of_lt_of_le hq hn
  refine ⟨fun i hi => exists_round hn hr hq hc ht m hi, fun i k => overwrites_iff ht, ?_⟩
  rw [actOn?, if_neg (Nat.not_le.2 hindex)]
  rfl

end Target

theorem foldlM_in_place (m : Matrix2 R) (hn : n ≤ indexBits) (hr : r.size = lineIndex n)
    (hc : ∀ c ∈ controls, c.line < n) {targets : List Qubit}
    (ht : ∀ q ∈ targets, q < n ∧ q ∉ controls.map Control.line) :
    ∃ r', targets.foldlM (actOn? m controls) r = some r' ∧ r'.size = lineIndex n ∧
      targets.foldlM (actOutOfPlace? m controls) r = some r' := by
  induction targets generalizing r with
  | nil => exact ⟨r, rfl, hr, rfl⟩
  | cons q targets ih =>
    obtain ⟨⟨hq, hapart⟩, hrest⟩ := List.forall_mem_cons.1 ht
    obtain ⟨r₁, hact, hsize, hout, -⟩ := actOn?_in_place hn hr hq hc hapart m
    obtain ⟨r₂, hacts, hsize₂, houts⟩ := ih hsize hrest
    refine ⟨r₂, ?_, hsize₂, ?_⟩
    · rw [List.foldlM_cons, hact]
      exact hacts
    · rw [List.foldlM_cons, hout]
      exact houts

/-- A gate that fits a register acts on it, target by target, as out of place: no line lies outside,
and the register keeps its size. On each target every amplitude is overwritten at most once, from
amplitudes that were not overwritten yet. -/
theorem acts_in_place (matrix : GateKind → Matrix2 R) {g : Gate} (hn : n ≤ indexBits)
    (hr : r.size = lineIndex n) (hg : g.Fits n) :
    (∃ r', act? matrix r g = some r' ∧ r'.size = lineIndex n ∧
      g.targets.foldlM (actOutOfPlace? (matrix g.kind) g.controls) r = some r') ∧
    ∀ before target after, g.targets = before ++ target :: after →
      ∃ old new, before.foldlM (actOn? (matrix g.kind) g.controls) r = some old ∧
        old.size = lineIndex n ∧ actOn? (matrix g.kind) g.controls old target = some new ∧
        new.size = lineIndex n ∧
        actOutOfPlace? (matrix g.kind) g.controls old target = some new ∧
        PairByPair (matrix g.kind) g.controls target old := by
  have hc : ∀ c ∈ g.controls, c.line < n := by
    intro c hm
    exact hg.inside c.line (List.mem_append_left _ (List.mem_map_of_mem hm))
  have ht : ∀ q ∈ g.targets, q < n ∧ q ∉ g.controls.map Control.line := by
    intro q hq
    refine ⟨hg.inside q (List.mem_append_right _ hq), fun hm => ?_⟩
    exact (List.nodup_append.1 hg.distinct).2.2 q hm q hq rfl
  refine ⟨foldlM_in_place (matrix g.kind) hn hr hc ht, ?_⟩
  intro before target after htargets
  rw [htargets] at ht
  obtain ⟨hbefore, hrest⟩ := List.forall_mem_append.1 ht
  obtain ⟨hq, hapart⟩ := hrest target List.mem_cons_self
  obtain ⟨old, hold, hsize, -⟩ := foldlM_in_place (matrix g.kind) hn hr hc hbefore
  obtain ⟨new, hnew, hsize', hout, rounds⟩ :=
    actOn?_in_place hn hsize hq hc hapart (matrix g.kind)
  exact ⟨old, new, hold, hsize, hnew, hsize', hout, rounds⟩

/-- A gate on two of three lines, which fires where the remaining line is zero. -/
theorem acts_on_eight :
    let m : Matrix2 Nat := ⟨2, 3, 5, 7⟩
    let g : Gate := ⟨.hadamard, [⟨0, false⟩], [2, 1]⟩
    let start : Register Nat := #[1, 2, 3, 4, 5, 6, 7, 8]
    (3 ≤ indexBits ∧ start.size = lineIndex 3 ∧ g.Fits 3) ∧
    act? (fun _ => m) start g = some #[115, 2, 274, 4, 272, 6, 648, 8] ∧
    g.targets.foldlM (actOutOfPlace? m g.controls) start =
      some #[115, 2, 274, 4, 272, 6, 648, 8] ∧
    ∃ old, actOn? m g.controls start 2 = some old ∧ PairByPair m g.controls 1 old := by
  intro m g start
  have acted : act? (fun _ => m) start g = some #[115, 2, 274, 4, 272, 6, 648, 8] := by
    decide +kernel
  have hn : 3 ≤ indexBits := by decide
  have hr : start.size = lineIndex 3 := rfl
  have hg : g.Fits 3 := by decide
  obtain ⟨⟨r', hact, -, hout⟩, rounds⟩ := acts_in_place (fun _ => m) hn hr hg
  obtain rfl := Option.some.inj (hact.symm.trans acted)
  obtain ⟨old, new, hold, -, -, -, -, hpairs⟩ := rounds [2] 1 [] rfl
  exact ⟨⟨hn, hr, hg⟩, acted, hout, old, by simpa using hold, hpairs⟩

section Basis

variable {qubits index : Nat} {start : Register Complex}

/-- Registers start with an amplitude for each index, and indices have bits for all their lines. -/
theorem size_basis (h : basis qubits index = .ok start) :
    start.size = lineIndex qubits ∧ qubits ≤ indexBits := by
  unfold basis at h
  split_ifs at h with hlarge
  obtain rfl := Except.ok.inj h
  refine ⟨by simp, ?_⟩
  simp only [maxQubits, indexBits] at hlarge ⊢
  omega

/-- Gates that fit a register take its basis states to registers of the same size. -/
theorem run?_basis {gates : List Gate} (hg : ∀ g ∈ gates, g.Fits qubits)
    (h : basis qubits index = .ok start) :
    ∃ r', run? GateKind.matrix start gates = some r' ∧ r'.size = lineIndex qubits := by
  obtain ⟨hr, hn⟩ := size_basis h
  obtain ⟨ψ, hψ⟩ := exists_holds (hr ▸ Nat.two_pow_pos qubits : 0 < start.size)
  obtain ⟨r', hrun, hsize, -⟩ := run?_holds GateKind.matrix hn hr hg hψ
  exact ⟨r', hrun, hsize.trans hr⟩

end Basis

end QubitRouting.Register
