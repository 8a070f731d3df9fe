import Mathlib.Data.ZMod.Basic
import Mathlib.Tactic.LinearCombination
import QubitRouting.Proofs.Simulation.Wave
import QubitRouting.Relay.Emission

/-!
CNOTs and Hadamards under exact matrices: NOT gates exchange amplitudes, and a CNOT between
Hadamards on both lines is the CNOT of the other direction. CNOTs alone permute the indices, so a
list of them is settled bit by bit.
-/

namespace QubitRouting

variable {R : Type} [CommRing R]

/-- NOT exchanges the two values of a line, and Hadamard is `s` times `1 1` over `1 -1`. The
matrices of the other kinds are left open. -/
structure Standard (s : R) (matrix : GateKind → Matrix2 R) : Prop where
  half : 2 * s * s = 1
  toffoli : matrix .toffoli = ⟨0, 1, 1, 0⟩
  hadamard : matrix .hadamard = ⟨s, s, s, -s⟩

/-- Matrices over the field of 17 elements, in which 3 is a root of one half and 2 an eighth root of
one. Kinds that no router emits have the identity. -/
def GateKind.modular : GateKind → Matrix2 (ZMod 17)
  | .toffoli => ⟨0, 1, 1, 0⟩
  | .hadamard => ⟨3, 3, 3, -3⟩
  | .pauli .z 4 false => ⟨1, 0, 0, 2⟩
  | .pauli .z 4 true => ⟨1, 0, 0, 9⟩
  | .v false => ⟨11, 7, 7, 11⟩
  | .v true => ⟨7, 11, 11, 7⟩
  | .pauli .. => ⟨1, 0, 0, 1⟩

theorem standard_modular : Standard 3 GateKind.modular := ⟨by decide, rfl, rfl⟩

def Permutes (matrix : GateKind → Matrix2 R) (gates : List Gate) (f : Nat → Nat) : Prop :=
  ∀ ψ : Wave R, Wave.run matrix gates ψ = ψ ∘ f

def notIndex (controls : List Control) (target : Qubit) (k : Nat) : Nat :=
  if Fires controls k then flipLine target k else k

def cnotIndex (c t : Qubit) : Nat → Nat := notIndex [⟨c, true⟩] t

theorem testBit_cnotIndex (c t q : Qubit) (k : Nat) :
    (cnotIndex c t k).testBit q = (k.testBit q ^^ (decide (t = q) && k.testBit c)) := by
  by_cases h : k.testBit c = true <;> simp [cnotIndex, notIndex, Fires, testBit_flipLine, h]

def flipLines (targets : List Qubit) (k : Nat) : Nat := targets.foldr flipLine k

theorem testBit_flipLines_of_not_mem {targets : List Qubit} {q : Qubit} (hq : q ∉ targets)
    (k : Nat) :
    (flipLines targets k).testBit q = k.testBit q := by
  induction targets with
  | nil => rfl
  | cons t targets ih =>
    rw [List.mem_cons, not_or] at hq
    rw [flipLines, List.foldr_cons, testBit_flipLine_of_ne (Ne.symm hq.1)]
    exact ih hq.2

theorem testBit_flipLines_of_mem {targets : List Qubit} (hn : targets.Nodup) {q : Qubit}
    (hq : q ∈ targets) (k : Nat) : (flipLines targets k).testBit q = !k.testBit q := by
  induction targets with
  | nil => cases hq
  | cons t targets ih =>
    obtain ⟨ht, hrest⟩ := List.nodup_cons.1 hn
    rw [flipLines, List.foldr_cons]
    by_cases htq : t = q
    · subst htq
      rw [testBit_flipLine_self]
      exact congrArg _ (testBit_flipLines_of_not_mem ht k)
    · rw [testBit_flipLine_of_ne htq]
      exact ih hrest (List.mem_of_ne_of_mem (Ne.symm htq) hq)

theorem fires_flipLines {controls : List Control} {targets : List Qubit}
    (h : ∀ q ∈ targets, q ∉ controls.map Control.line) (k : Nat) :
    Fires controls (flipLines targets k) ↔ Fires controls k := by
  induction targets with
  | nil => rfl
  | cons t targets ih =>
    obtain ⟨ht, hrest⟩ := List.forall_mem_cons.1 h
    rw [flipLines, List.foldr_cons, fires_flipLine ht]
    exact ih hrest

namespace Gate

variable {n : Nat} {a b q : Qubit}

theorem Fits.not (h : q < n) : (Gate.not q).Fits n := by
  constructor <;> simp [Gate.not, lines, h]

theorem Fits.hadamard (h : q < n) : (Gate.hadamard q).Fits n := by
  constructor <;> simp [Gate.hadamard, lines, h]

theorem Fits.cnot (hab : a ≠ b) (ha : a < n) (hb : b < n) : (Gate.cnot a b).Fits n := by
  constructor <;> simp [Gate.cnot, lines, hab, ha, hb]

theorem Fits.hadamards (ha : a < n) (hb : b < n) : ∀ g ∈ hadamards a b, Fits n g :=
  List.forall_mem_cons.2 ⟨.hadamard ha, List.forall_mem_singleton.2 (.hadamard hb)⟩

end Gate

variable {s : R} {matrix : GateKind → Matrix2 R}

namespace Permutes

theorem append {gs hs : List Gate} {f h : Nat → Nat} (hg : Permutes matrix gs f)
    (hh : Permutes matrix hs h) : Permutes matrix (gs ++ hs) (f ∘ h) := by
  intro ψ
  rw [Wave.run_append, hg, hh]
  rfl

theorem run_eq {gs hs : List Gate} {f h : Nat → Nat} (hg : Permutes matrix gs f)
    (hh : Permutes matrix hs h) (hfh : ∀ k q, (f k).testBit q = (h k).testBit q) :
    Wave.run matrix gs = Wave.run matrix hs := by
  have : f = h := funext fun k => Nat.eq_of_testBit_eq (hfh k)
  funext ψ
  rw [hg, hh, this]

theorem of_run_eq {gs hs : List Gate} {f : Nat → Nat} (hh : Permutes matrix hs f)
    (h : Wave.run matrix gs = Wave.run matrix hs) : Permutes matrix gs f := by
  intro ψ
  rw [h, hh]

theorem conjugate {before core after : List Gate} {f g h : Nat → Nat}
    (hf : Permutes matrix before f) (hg : Permutes matrix core g) (hh : Permutes matrix after h) :
    Permutes matrix (before ++ core ++ after) (f ∘ g ∘ h) := by
  have := (hf.append hg).append hh
  rwa [Function.comp_assoc] at this

end Permutes

namespace Wave

variable (matrix : GateKind → Matrix2 R)

theorem hadamard_comm (p q : Qubit) (ψ : Wave R) :
    act matrix (.hadamard p) (act matrix (.hadamard q) ψ) =
      act matrix (.hadamard q) (act matrix (.hadamard p) ψ) := by
  by_cases h : p = q
  · rw [h]
  · exact act_comm matrix (by simpa [Gate.hadamard, Gate.lines] using h)
      (by simpa [Gate.hadamard, Gate.lines] using Ne.symm h) ψ

theorem cnot_hadamard_comm {c t q : Qubit} (hc : q ≠ c) (ht : q ≠ t) (ψ : Wave R) :
    act matrix (.cnot c t) (act matrix (.hadamard q) ψ) =
      act matrix (.hadamard q) (act matrix (.cnot c t) ψ) := by
  refine act_comm matrix ?_ ?_ ψ
  · simpa [Gate.cnot, Gate.hadamard, Gate.lines] using Ne.symm ht
  · simp [Gate.cnot, Gate.hadamard, Gate.lines, hc, ht]

theorem hadamards_swap (a b : Qubit) :
    run matrix (hadamards a b) = run matrix (hadamards b a) :=
  funext fun ψ => hadamard_comm matrix b a ψ

end Wave

open Wave (hadamards_swap)

namespace Standard

theorem permutes_toffoli (hM : Standard s matrix) (controls : List Control) (t : Qubit) :
    Permutes matrix [.toffoli controls t] (notIndex controls t) := by
  intro ψ
  funext k
  simp only [Wave.run, Wave.act, Wave.actOn, Gate.toffoli, List.foldl_cons, List.foldl_nil,
    hM.toffoli, Function.comp_apply, notIndex]
  split_ifs <;> ring

theorem act_toffoli (hM : Standard s matrix) {controls : List Control}
    {targets : List Qubit} (h : ∀ q ∈ targets, q ∉ controls.map Control.line) (ψ : Wave R)
    (k : Nat) : Wave.act matrix ⟨.toffoli, controls, targets⟩ ψ k =
      ψ (if Fires controls k then flipLines targets k else k) := by
  induction targets generalizing ψ with
  | nil => simp [Wave.act, flipLines]
  | cons t targets ih =>
    obtain ⟨ht, hrest⟩ := List.forall_mem_cons.1 h
    have first : Wave.act matrix ⟨.toffoli, controls, t :: targets⟩ ψ =
        Wave.act matrix ⟨.toffoli, controls, targets⟩
          (Wave.run matrix [.toffoli controls t] ψ) := rfl
    rw [first, ih hrest, hM.permutes_toffoli, Function.comp_apply, notIndex]
    by_cases hfires : Fires controls k
    · have hfires' := (fires_flipLines hrest k).2 hfires
      rw [if_pos hfires, if_pos hfires', if_pos hfires]
      rfl
    · rw [if_neg hfires, if_neg hfires, if_neg hfires]

theorem permutes_cnot (hM : Standard s matrix) (c t : Qubit) :
    Permutes matrix [.cnot c t] (cnotIndex c t) := hM.permutes_toffoli [⟨c, true⟩] t

theorem permutes_not (hM : Standard s matrix) (t : Qubit) :
    Permutes matrix [.not t] (flipLine t) := by
  have h : notIndex [] t = flipLine t := by funext k; simp [notIndex, Fires]
  rw [← h]
  exact hM.permutes_toffoli [] t

theorem act_cnot (hM : Standard s matrix) (c t : Qubit) (ψ : Wave R) (k : Nat) :
    Wave.act matrix (.cnot c t) ψ k = ψ (if k.testBit c then flipLine t k else k) := by
  have h := congrFun (hM.permutes_cnot c t ψ) k
  simpa [cnotIndex, notIndex, Fires, Wave.run] using h

theorem act_hadamard (hM : Standard s matrix) (q : Qubit) (ψ : Wave R) (k : Nat) :
    Wave.act matrix (.hadamard q) ψ k =
      s * ψ (flipLine q k) + (if k.testBit q then -s else s) * ψ k := by
  simp only [Wave.act, Wave.actOn, Gate.hadamard, List.foldl_cons, List.foldl_nil, hM.hadamard,
    Fires, List.not_mem_nil, false_implies, implies_true, if_true]
  split_ifs <;> ring

theorem hadamard_twice (hM : Standard s matrix) (q : Qubit) (ψ : Wave R) :
    Wave.act matrix (.hadamard q) (Wave.act matrix (.hadamard q) ψ) = ψ := by
  funext k
  simp only [hM.act_hadamard, flipLine_flipLine, testBit_flipLine_self]
  cases k.testBit q <;> simp <;> linear_combination (ψ k) * hM.half

theorem hadamards_twice (hM : Standard s matrix) (a b : Qubit) (ψ : Wave R) :
    Wave.run matrix (hadamards a b) (Wave.run matrix (hadamards a b) ψ) = ψ := by
  nth_rewrite 1 [hadamards_swap]
  change Wave.act matrix (.hadamard a) (Wave.act matrix (.hadamard b) (Wave.act matrix (.hadamard b)
    (Wave.act matrix (.hadamard a) ψ))) = ψ
  rw [hM.hadamard_twice, hM.hadamard_twice]

theorem hadamards_cnot (hM : Standard s matrix) {a b : Qubit} (h : a ≠ b) :
    Wave.run matrix (hadamards a b ++ [.cnot a b]) =
      Wave.run matrix ([.cnot b a] ++ hadamards a b) := by
  funext ψ k
  have hab := testBit_flipLine_of_ne h
  have hba := testBit_flipLine_of_ne h.symm
  simp only [hadamards, List.cons_append, List.nil_append, Wave.run_cons, Wave.run_nil,
    hM.act_cnot, hM.act_hadamard]
  cases ha : k.testBit a <;> cases hb : k.testBit b <;>
    simp [ha, hb, hab, hba] <;> ring

/-- A CNOT between Hadamards on both lines is the reversed CNOT. -/
theorem turned (hM : Standard s matrix) {a b : Qubit} (h : a ≠ b) :
    Wave.run matrix (hadamards a b ++ [.cnot a b] ++ hadamards a b) =
      Wave.run matrix [.cnot b a] := by
  funext ψ
  rw [Wave.run_append, hM.hadamards_cnot h, Wave.run_append, hM.hadamards_twice]

theorem turned' (hM : Standard s matrix) {a b : Qubit} (h : a ≠ b) :
    Wave.run matrix (hadamards a b ++ [.cnot b a] ++ hadamards a b) =
      Wave.run matrix [.cnot a b] := by
  rw [← hM.turned h.symm]
  funext ψ
  simp only [Wave.run_append, hadamards_swap matrix a b]

theorem act_cnot_turned (hM : Standard s matrix) {a b : Qubit} (h : a ≠ b) (ψ : Wave R) :
    Wave.act matrix (.cnot b a) ψ =
      Wave.act matrix (.hadamard b) (Wave.act matrix (.hadamard a) (Wave.act matrix (.cnot a b)
        (Wave.act matrix (.hadamard b) (Wave.act matrix (.hadamard a) ψ)))) :=
  (congrFun (hM.turned h) ψ).symm

end Standard

end QubitRouting
