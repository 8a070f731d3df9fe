import Mathlib.Algebra.Ring.Defs
import Mathlib.Tactic.LinearCombination
import Mathlib.Tactic.Ring
import QubitRouting.Simulation.Register

/-!
The exact action of gates on amplitudes, out of place and without a bound on the lines. Bit `q` of
an index is the value of line `q`, as in a register. Gates whose targets are no lines of each other
commute, and a gate is undone by one on the same lines with the inverse matrix.
-/

namespace QubitRouting

/-- An amplitude for every index. A state of `n` lines is the part below `lineIndex n`; gates on
these lines neither read nor write another part. -/
abbrev Wave (R : Type) := Nat → R

def flipLine (q : Qubit) (k : Nat) : Nat := k ^^^ lineIndex q

def Fires (controls : List Control) (k : Nat) : Prop :=
  ∀ c ∈ controls, k.testBit c.line = c.positive

instance (controls : List Control) (k : Nat) : Decidable (Fires controls k) :=
  inferInstanceAs (Decidable (∀ c ∈ controls, _))

namespace Wave

variable {R : Type}

def actOn [Add R] [Mul R] (m : Matrix2 R) (controls : List Control) (target : Qubit)
    (ψ : Wave R) : Wave R := fun k =>
  if Fires controls k then
    if k.testBit target then m.a10 * ψ (flipLine target k) + m.a11 * ψ k
    else m.a00 * ψ k + m.a01 * ψ (flipLine target k)
  else ψ k

def act [Add R] [Mul R] (matrix : GateKind → Matrix2 R) (g : Gate) (ψ : Wave R) : Wave R :=
  g.targets.foldl (fun ψ q => actOn (matrix g.kind) g.controls q ψ) ψ

def run [Add R] [Mul R] (matrix : GateKind → Matrix2 R) (gates : List Gate) (ψ : Wave R) :
    Wave R :=
  gates.foldl (fun ψ g => act matrix g ψ) ψ

end Wave

section Lines

theorem testBit_lineIndex (q p : Qubit) : (lineIndex q).testBit p = decide (q = p) :=
  Nat.testBit_two_pow

theorem testBit_flipLine (q p : Qubit) (k : Nat) :
    (flipLine q k).testBit p = (k.testBit p ^^ decide (q = p)) := by
  rw [flipLine, Nat.testBit_xor, testBit_lineIndex]

@[simp] theorem testBit_flipLine_self (q : Qubit) (k : Nat) :
    (flipLine q k).testBit q = !k.testBit q := by
  simp [testBit_flipLine]

theorem testBit_flipLine_of_ne {q p : Qubit} (h : q ≠ p) (k : Nat) :
    (flipLine q k).testBit p = k.testBit p := by
  simp [testBit_flipLine, h]

@[simp] theorem flipLine_flipLine (q : Qubit) (k : Nat) : flipLine q (flipLine q k) = k := by
  rw [flipLine, flipLine, Nat.xor_assoc, Nat.xor_self, Nat.xor_zero]

theorem flipLine_comm (q p : Qubit) (k : Nat) :
    flipLine q (flipLine p k) = flipLine p (flipLine q k) := by
  simp only [flipLine, Nat.xor_assoc, Nat.xor_comm (lineIndex p)]

theorem fires_flipLine {controls : List Control} {q : Qubit}
    (h : q ∉ controls.map Control.line) (k : Nat) :
    Fires controls (flipLine q k) ↔ Fires controls k := by
  refine forall₂_congr fun c hc => ?_
  have hne : q ≠ c.line := fun e => h (e ▸ List.mem_map_of_mem hc)
  rw [testBit_flipLine_of_ne hne]

end Lines

namespace Wave

variable {R : Type}

section Run

variable [Add R] [Mul R] (matrix : GateKind → Matrix2 R)

@[simp] theorem run_nil (ψ : Wave R) : run matrix [] ψ = ψ := rfl

theorem run_cons (g : Gate) (gates : List Gate) (ψ : Wave R) :
    run matrix (g :: gates) ψ = run matrix gates (act matrix g ψ) := rfl

theorem run_append (gs hs : List Gate) (ψ : Wave R) :
    run matrix (gs ++ hs) ψ = run matrix hs (run matrix gs ψ) := by
  simp [run, List.foldl_append]

theorem run_in_context {gs hs : List Gate} (h : run matrix gs = run matrix hs)
    (before after : List Gate) :
    run matrix (before ++ gs ++ after) = run matrix (before ++ hs ++ after) := by
  funext ψ
  simp only [run_append, h]

theorem run_flatten {parts : List (List Gate)} {gates : List Gate}
    (h : List.Forall₂ (fun g part => run matrix part = run matrix [g]) gates parts) :
    run matrix parts.flatten = run matrix gates := by
  induction h with
  | nil => rfl
  | @cons g part gates parts hg _ ih =>
    funext ψ
    rw [List.flatten_cons, run_append, ih, hg]
    rfl

end Run

end Wave

namespace Matrix2

variable {R : Type} [CommRing R]

def mul (m n : Matrix2 R) : Matrix2 R where
  a00 := m.a00 * n.a00 + m.a01 * n.a10
  a01 := m.a00 * n.a01 + m.a01 * n.a11
  a10 := m.a10 * n.a00 + m.a11 * n.a10
  a11 := m.a10 * n.a01 + m.a11 * n.a11

def diagonal (x y : R) : Matrix2 R := ⟨x, 0, 0, y⟩

end Matrix2

namespace Wave

variable {R : Type} [CommRing R]

theorem actOn_comm {m n : Matrix2 R} {cs ds : List Control} {p q : Qubit} (hpq : p ≠ q)
    (hp : p ∉ ds.map Control.line) (hq : q ∉ cs.map Control.line) (ψ : Wave R) :
    actOn m cs p (actOn n ds q ψ) = actOn n ds q (actOn m cs p ψ) := by
  funext k
  have hk := testBit_flipLine_of_ne hpq k
  have hk' := testBit_flipLine_of_ne hpq.symm k
  unfold actOn
  simp only [fires_flipLine hp, fires_flipLine hq, hk, hk', flipLine_comm q p]
  split_ifs <;> ring

private theorem foldl_comm {α β : Type} {f : α → β → α} {φ : α → α} {l : List β}
    (h : ∀ b ∈ l, ∀ a, f (φ a) b = φ (f a b)) (a : α) :
    l.foldl f (φ a) = φ (l.foldl f a) := by
  induction l generalizing a with
  | nil => rfl
  | cons b l ih =>
    rw [List.foldl_cons, List.foldl_cons, h b List.mem_cons_self]
    exact ih (fun c hc => h c (List.mem_cons_of_mem b hc)) (f a b)

/-- Gates commute when the targets of each are no lines of the other. -/
theorem act_comm (matrix : GateKind → Matrix2 R) {g h : Gate} (hg : ∀ q ∈ g.targets, q ∉ h.lines)
    (hh : ∀ q ∈ h.targets, q ∉ g.lines) (ψ : Wave R) :
    act matrix g (act matrix h ψ) = act matrix h (act matrix g ψ) := by
  simp only [Gate.lines, List.mem_append, not_or] at hg hh
  apply foldl_comm (φ := act matrix h)
  intro p hp ψ
  symm
  apply foldl_comm (φ := actOn (matrix g.kind) g.controls p)
  intro q hq ψ
  have hne : q ≠ p := fun e => (hg p hp).2 (e ▸ hq)
  exact actOn_comm hne (hh q hq).1 (hg p hp).1 ψ

theorem actOn_undo {m n : Matrix2 R} (hmn : m.mul n = .diagonal 1 1) {controls : List Control}
    {q : Qubit} (hq : q ∉ controls.map Control.line) (ψ : Wave R) :
    actOn m controls q (actOn n controls q ψ) = ψ := by
  obtain ⟨h00, h01, h10, h11⟩ := Matrix2.mk.inj hmn
  funext k
  simp only [actOn, fires_flipLine hq, testBit_flipLine_self, flipLine_flipLine]
  by_cases hfires : Fires controls k
  · cases hbit : k.testBit q with
    | false =>
      simp only [hfires, if_true, Bool.false_eq_true, if_false, Bool.not_false]
      linear_combination ψ k * h00 + ψ (flipLine q k) * h01
    | true =>
      simp only [hfires, if_true, Bool.not_true, Bool.false_eq_true, if_false]
      linear_combination ψ (flipLine q k) * h10 + ψ k * h11
  · simp only [hfires, if_false]

theorem foldl_actOn_undo {m n : Matrix2 R} (hmn : m.mul n = .diagonal 1 1)
    {controls : List Control} {targets : List Qubit} (hnodup : targets.Nodup)
    (hapart : ∀ q ∈ targets, q ∉ controls.map Control.line) (ψ : Wave R) :
    targets.foldl (fun ψ q => actOn m controls q ψ)
      (targets.foldl (fun ψ q => actOn n controls q ψ) ψ) = ψ := by
  induction targets generalizing ψ with
  | nil => rfl
  | cons q targets ih =>
    obtain ⟨hq, hrest⟩ := List.nodup_cons.1 hnodup
    obtain ⟨hqc, htc⟩ := List.forall_mem_cons.1 hapart
    have carried : ∀ χ : Wave R, targets.foldl (fun ψ q => actOn n controls q ψ)
        (actOn m controls q χ) =
        actOn m controls q (targets.foldl (fun ψ q => actOn n controls q ψ) χ) := by
      intro χ
      apply foldl_comm (φ := actOn m controls q)
      intro p hp ψ
      have hne : p ≠ q := fun e => hq (e ▸ hp)
      exact actOn_comm hne (htc p hp) hqc ψ
    rw [List.foldl_cons, List.foldl_cons, ← carried, actOn_undo hmn hqc]
    exact ih hrest htc ψ

/-- A gate is undone by one with the inverse matrix on the same lines. -/
theorem act_undo {matrix : GateKind → Matrix2 R} {g h : Gate} (hl : g.lines.Nodup)
    (hc : h.controls = g.controls) (ht : h.targets = g.targets)
    (hm : (matrix h.kind).mul (matrix g.kind) = .diagonal 1 1) (ψ : Wave R) :
    act matrix h (act matrix g ψ) = ψ := by
  rw [Gate.lines, List.nodup_append] at hl
  obtain ⟨-, hnodup, hapart⟩ := hl
  rw [act, act, hc, ht]
  exact foldl_actOn_undo hm hnodup (fun q hq hqc => hapart q hqc q hq rfl) ψ

end Wave

end QubitRouting
