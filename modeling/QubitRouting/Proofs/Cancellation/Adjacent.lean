import Mathlib.Data.List.Basic
import Mathlib.Logic.Relation
import QubitRouting.Circuit.Cancellation

/-!
Lists of gates, up to the exchange of neighbours that share no line, and the deletion of two
adjacent gates that cancel. Only a gate on the same lines undoes a gate, so each gate has at most
one undoing, and a gate that is apart from the one is apart from the other.
-/

namespace QubitRouting

namespace Gate

variable {g h p q : Gate}

theorem touches_eq_false_iff : g.touches h = false ↔ ∀ l ∈ g.lines, l ∉ h.lines := by
  simp [touches]

theorem touches_eq_true_iff : g.touches h = true ↔ ∃ l ∈ g.lines, l ∈ h.lines := by
  simp [touches]

theorem touches_comm (g h : Gate) : g.touches h = h.touches g := by
  rw [Bool.eq_iff_iff, touches_eq_true_iff, touches_eq_true_iff]
  constructor
  · rintro ⟨l, hg, hh⟩
    exact ⟨l, hh, hg⟩
  · rintro ⟨l, hh, hg⟩
    exact ⟨l, hg, hh⟩

theorem touches_congr (hl : g.lines = h.lines) (x : Gate) : x.touches g = x.touches h := by
  rw [touches, touches, hl]

theorem touches_of_lines_eq (hl : g.lines = h.lines) (hne : g.lines ≠ []) :
    g.touches h = true := by
  obtain ⟨l, hmem⟩ := List.exists_mem_of_ne_nil _ hne
  exact touches_eq_true_iff.2 ⟨l, hmem, hl ▸ hmem⟩

theorem Fits.lines_ne {n : Nat} (hg : g.Fits n) : g.lines ≠ [] := by
  intro hnil
  exact hg.targets_ne (List.append_eq_nil_iff.1 hnil).2

end Gate

/-- The kinds that a sweep takes away: all but the proper roots of Pauli operators. -/
def GateKind.isUndone : GateKind → Bool
  | .pauli _ root _ => root = 1
  | _ => true

theorem GateKind.isUndone_inverse (k : GateKind) : k.inverse.isUndone = k.isUndone := by
  cases k <;> rfl

namespace Gate

variable {g h p q : Gate}

theorem cancels_iff : p.cancels g = true ↔ p = g.inverse ∧ g.kind.isUndone = true := by
  obtain ⟨kind, controls, targets⟩ := g
  cases kind with
  | toffoli => simp [cancels, inverse, GateKind.inverse, GateKind.isUndone]
  | hadamard => simp [cancels, inverse, GateKind.inverse, GateKind.isUndone]
  | v adjoint =>
    simp only [cancels, GateKind.isUndone, and_true]
    exact decide_eq_true_iff
  | pauli axis root adjoint =>
    by_cases hr : root = 1
    · simp [cancels, inverse, isSelfInverse, GateKind.inverse, GateKind.isUndone, hr]
    · simp [cancels, isSelfInverse, GateKind.inverse, GateKind.isUndone, hr]

theorem lines_of_cancels (hc : p.cancels g = true) : p.lines = g.lines := by
  rw [(cancels_iff.1 hc).1, lines_inverse]

theorem cancels_symm (hc : p.cancels g = true) : g.cancels p = true := by
  obtain ⟨rfl, hk⟩ := cancels_iff.1 hc
  refine cancels_iff.2 ⟨g.inverse_inverse.symm, ?_⟩
  rw [← hk]
  exact g.kind.isUndone_inverse

theorem eq_of_cancels (hp : p.cancels g = true) (hq : q.cancels g = true) : p = q := by
  rw [(cancels_iff.1 hp).1, (cancels_iff.1 hq).1]

end Gate

inductive Exchange : List Gate → List Gate → Prop where
  | swap (before after : List Gate) {g h : Gate} : g.touches h = false →
      Exchange (before ++ g :: h :: after) (before ++ h :: g :: after)

abbrev Shuffle : List Gate → List Gate → Prop := Relation.ReflTransGen Exchange

/-- Two gates that cancel are deleted, where no gate between them shares a line with them. -/
inductive Deletion : List Gate → List Gate → Prop where
  | pair (before between after : List Gate) {g h : Gate} : g.cancels h = true →
      (∀ x ∈ between, x.touches g = false ∧ x.touches h = false) →
      Deletion (before ++ g :: between ++ h :: after) (before ++ between ++ after)

def Reduced (gates : List Gate) : Prop := ∀ rest, ¬ Deletion gates rest

section Exchange

variable {gs hs : List Gate}

theorem Exchange.symm (h : Exchange gs hs) : Exchange hs gs := by
  cases h with
  | swap before after hgh =>
    apply Exchange.swap
    rwa [Gate.touches_comm]

theorem Exchange.prepend (front : List Gate) (h : Exchange gs hs) :
    Exchange (front ++ gs) (front ++ hs) := by
  cases h with
  | swap before after hgh =>
    have moved := Exchange.swap (front ++ before) after hgh
    rwa [List.append_assoc, List.append_assoc] at moved

theorem Exchange.reverse (h : Exchange gs hs) : Exchange gs.reverse hs.reverse := by
  cases h with
  | @swap before after g h hgh =>
    have moved := Exchange.swap after.reverse before.reverse (g := h) (h := g)
      (by rwa [Gate.touches_comm])
    simpa using moved

theorem Exchange.perm (h : Exchange gs hs) : gs.Perm hs := by
  cases h with
  | swap before after _ => exact List.Perm.append_left before (List.Perm.swap _ _ _)

namespace Shuffle

theorem symm (h : Shuffle gs hs) : Shuffle hs gs := by
  induction h with
  | refl => exact .refl
  | tail _ step ih => exact .head step.symm ih

theorem prepend (front : List Gate) (h : Shuffle gs hs) : Shuffle (front ++ gs) (front ++ hs) :=
  h.lift (front ++ ·) fun _ _ step => step.prepend front

theorem cons (g : Gate) (h : Shuffle gs hs) : Shuffle (g :: gs) (g :: hs) := h.prepend [g]

theorem reverse (h : Shuffle gs hs) : Shuffle gs.reverse hs.reverse :=
  h.lift List.reverse fun _ _ step => step.reverse

theorem perm (h : Shuffle gs hs) : gs.Perm hs := by
  induction h with
  | refl => exact List.Perm.refl _
  | tail _ step ih => exact ih.trans step.perm

theorem pass {g : Gate} {front : List Gate} (back : List Gate)
    (h : ∀ x ∈ front, x.touches g = false) :
    Shuffle (front ++ g :: back) (g :: front ++ back) := by
  induction front with
  | nil => exact .refl
  | cons x front ih =>
    obtain ⟨hx, hfront⟩ := List.forall_mem_cons.1 h
    exact ((ih hfront).cons x).tail (.swap [] (front ++ back) hx)

end Shuffle

end Exchange

section Deletion

variable {gs hs : List Gate}

theorem Deletion.sublist (h : Deletion gs hs) : hs.Sublist gs := by
  cases h with
  | pair before between after _ _ =>
    apply List.Sublist.append
    · apply List.Sublist.append (List.Sublist.refl before)
      exact List.sublist_cons_self _ between
    · exact List.sublist_cons_self _ after

theorem Deletion.length (h : Deletion gs hs) : gs.length = hs.length + 2 := by
  cases h with
  | pair before between after _ _ =>
    simp only [List.length_append, List.length_cons]
    omega

theorem Deletion.append (back : List Gate) (h : Deletion gs hs) :
    Deletion (gs ++ back) (hs ++ back) := by
  cases h with
  | pair before between after hc hbetween =>
    have longer := Deletion.pair before between (after ++ back) hc hbetween
    simpa [List.append_assoc] using longer

theorem sublist_of_deletions (h : Relation.ReflTransGen Deletion gs hs) : hs.Sublist gs := by
  induction h with
  | refl => exact List.Sublist.refl _
  | tail _ step ih => exact step.sublist.trans ih

theorem length_of_deletions (hdel : Relation.ReflTransGen Deletion gs hs) :
    ∃ k, gs.length = hs.length + 2 * k := by
  induction hdel with
  | refl => exact ⟨0, rfl⟩
  | tail _ step ih =>
    obtain ⟨k, hk⟩ := ih
    have hstep := step.length
    exact ⟨k + 1, by omega⟩

end Deletion

end QubitRouting
