import Mathlib.Data.List.Nodup
import QubitRouting.Json.Decode
import QubitRouting.Proofs.Outcome

/-!
Records as JSON objects, apart from what they are records of. A record has a slot for each field
that its reader looks for. Its objects are those with all fields, and what they become when fields
that are read by default are left out, fields that the reader does not look for are added, and the
order is changed.
-/

namespace QubitRouting.Json

structure Slot where
  key : String
  /-- The value stands for what the record has. -/
  Accepts : Json → Prop
  /-- What the record has is what is read when the key is absent. -/
  Spare : Prop

/-- The fields of the objects of a record: all of them in order, or what becomes of fields of such
an object by one step. -/
inductive RecordOf (slots : List Slot) : List (String × Json) → Prop where
  | full {fields : List (String × Json)}
      (h : List.Forall₂ (fun s f => f.1 = s.key ∧ s.Accepts f.2) slots fields) :
      RecordOf slots fields
  | leaveOut {fields : List (String × Json)} {s : Slot} {j : Json} (hs : s ∈ slots)
      (hspare : s.Spare) (h : RecordOf slots ((s.key, j) :: fields)) : RecordOf slots fields
  | add {fields : List (String × Json)} {key : String} {j : Json}
      (hkey : key ∉ slots.map Slot.key) (h : RecordOf slots fields) :
      RecordOf slots ((key, j) :: fields)
  | reorder {fields fields' : List (String × Json)} (horder : fields.Perm fields')
      (h : RecordOf slots fields) : RecordOf slots fields'

def ObjectOf (slots : List Slot) (j : Json) : Prop :=
  ∃ fields, j = .obj fields ∧ RecordOf slots fields

def ListOf {α : Type} (Stands : α → Json → Prop) (as : List α) (j : Json) : Prop :=
  ∃ items, j = .arr items ∧ List.Forall₂ Stands as items

namespace Slot

def HeldBy (s : Slot) (fields : List (String × Json)) : Prop :=
  (∃ j, fields.filter (·.1 == s.key) = [(s.key, j)] ∧ s.Accepts j) ∨
    (fields.filter (·.1 == s.key) = [] ∧ s.Spare)

variable {s : Slot} {fields : List (String × Json)} {key : String} {j : Json}

theorem heldBy_add_iff (h : key ≠ s.key) : s.HeldBy ((key, j) :: fields) ↔ s.HeldBy fields := by
  rw [HeldBy, HeldBy, List.filter_cons_of_neg (by simpa using h)]

/-- The one field with the key is the one that is left out. -/
theorem HeldBy.leaveOut (h : s.HeldBy ((s.key, j) :: fields)) (hspare : s.Spare) :
    s.HeldBy fields := by
  rw [HeldBy, List.filter_cons_of_pos (by simp)] at h
  rcases h with ⟨j', hone, -⟩ | ⟨hnone, -⟩
  · exact Or.inr ⟨(List.cons.inj hone).2, hspare⟩
  · cases hnone

theorem HeldBy.perm {fields' : List (String × Json)} (h : s.HeldBy fields)
    (horder : fields.Perm fields') : s.HeldBy fields' := by
  have hfound := horder.filter (·.1 == s.key)
  rcases h with ⟨j, hone, hj⟩ | ⟨hnone, hspare⟩
  · rw [hone] at hfound
    exact Or.inl ⟨j, (List.singleton_perm.1 hfound).symm, hj⟩
  · rw [hnone] at hfound
    exact Or.inr ⟨List.nil_perm.1 hfound, hspare⟩

/-- Dropping the fields with another key changes nothing. -/
theorem HeldBy.keep (h : s.HeldBy fields) (hkey : s.key ≠ key) :
    s.HeldBy (fields.filter (·.1 ≠ key)) := by
  have hsame : (fields.filter (·.1 ≠ key)).filter (·.1 == s.key) =
      fields.filter (·.1 == s.key) := by
    rw [List.filter_filter]
    refine List.filter_congr fun f _ => ?_
    by_cases hf : f.1 = s.key
    · simp [hf, hkey]
    · simp [hf]
  rw [HeldBy, hsame]
  exact h

theorem HeldBy.field? (h : s.HeldBy fields) :
    ∃ found, Json.field? fields s.key = some found ∧
      ((∃ j, found = some j ∧ s.Accepts j) ∨ (found = none ∧ s.Spare)) := by
  rcases h with ⟨j, hone, hj⟩ | ⟨hnone, hspare⟩
  · exact ⟨some j, by rw [Json.field?, hone], Or.inl ⟨j, rfl, hj⟩⟩
  · exact ⟨none, by rw [Json.field?, hnone], Or.inr ⟨rfl, hspare⟩⟩

variable {α : Type} {decode : Json → Option α} {a : α}

theorem HeldBy.required (h : s.HeldBy fields) (hspare : ¬ s.Spare)
    (hdecode : ∀ j, s.Accepts j → decode j = some a) :
    ∃ found, Json.field? fields s.key = some found ∧ Json.required decode found = some a := by
  obtain ⟨found, hfound, ⟨j, rfl, hj⟩ | ⟨-, hs⟩⟩ := h.field?
  · exact ⟨some j, hfound, hdecode j hj⟩
  · exact absurd hs hspare

/-- A field that is left out when it has its default is read as that. -/
theorem HeldBy.optional {default : α} (h : s.HeldBy fields) (hspare : s.Spare → a = default)
    (hdecode : ∀ j, s.Accepts j → decode j = some a) :
    ∃ found, Json.field? fields s.key = some found ∧
      Json.optional default decode found = some a := by
  obtain ⟨found, hfound, ⟨j, rfl, hj⟩ | ⟨rfl, hs⟩⟩ := h.field?
  · exact ⟨some j, hfound, hdecode j hj⟩
  · exact ⟨none, hfound, congrArg some (hspare hs).symm⟩

end Slot

variable {slots : List Slot} {fields : List (String × Json)}

theorem filter_eq_nil_of_full {key : String}
    (h : List.Forall₂ (fun s f => f.1 = s.key ∧ s.Accepts f.2) slots fields)
    (hkey : key ∉ slots.map Slot.key) : fields.filter (·.1 == key) = [] := by
  induction h with
  | nil => rfl
  | @cons s f slots fields hsf _ ih =>
    rw [List.map_cons, List.mem_cons, not_or] at hkey
    rw [List.filter_cons_of_neg (by simpa [hsf.1] using Ne.symm hkey.1), ih hkey.2]

theorem heldBy_of_full (hkeys : (slots.map Slot.key).Nodup)
    (h : List.Forall₂ (fun s f => f.1 = s.key ∧ s.Accepts f.2) slots fields) :
    ∀ s ∈ slots, s.HeldBy fields := by
  induction h with
  | nil => nofun
  | @cons s f slots fields hsf hrest ih =>
    obtain ⟨key, j⟩ := f
    obtain ⟨rfl, hj⟩ := hsf
    obtain ⟨hkey, hkeys⟩ := List.nodup_cons.1 hkeys
    intro s' hs'
    rcases List.mem_cons.1 hs' with rfl | hs'
    · refine Or.inl ⟨j, ?_, hj⟩
      rw [List.filter_cons_of_pos (by simp), filter_eq_nil_of_full hrest hkey]
    · have hne : s.key ≠ s'.key := fun e => hkey (e ▸ List.mem_map_of_mem hs')
      exact (Slot.heldBy_add_iff hne).2 (ih hkeys s' hs')

/-- Whatever was left out, added and reordered, each slot is held. -/
theorem RecordOf.heldBy (hkeys : (slots.map Slot.key).Nodup) (h : RecordOf slots fields) :
    slots.Forall fun s => s.HeldBy fields := by
  rw [List.forall_iff_forall_mem]
  induction h with
  | full h => exact heldBy_of_full hkeys h
  | @leaveOut fields s j hs hspare _ ih =>
    intro s' hs'
    by_cases hkey : s.key = s'.key
    · obtain rfl := List.inj_on_of_nodup_map hkeys hs hs' hkey
      exact (ih s hs).leaveOut hspare
    · exact (Slot.heldBy_add_iff hkey).1 (ih s' hs')
  | @add fields key j hkey _ ih =>
    intro s' hs'
    refine (Slot.heldBy_add_iff ?_).2 (ih s' hs')
    rintro rfl
    exact hkey (List.mem_map_of_mem hs')
  | reorder horder _ ih => exact fun s' hs' => (ih s' hs').perm horder

section Lists

variable {α : Type} {Stands : α → Json → Prop} {as : List α} {decode : Json → Option α} {j : Json}

theorem ListOf.list? (h : ListOf Stands as j)
    (hdecode : ∀ a ∈ as, ∀ j, Stands a j → decode j = some a) : Json.list? decode j = some as := by
  obtain ⟨items, rfl, h⟩ := h
  refine mapM_eq_some_iff.2 ?_
  induction h with
  | nil => exact .nil
  | @cons a j as items haj _ ih =>
    obtain ⟨hhead, hrest⟩ := List.forall_mem_cons.1 hdecode
    exact .cons (hhead j haj) (ih hrest)

theorem listOf_map {encode : α → Json} (h : ∀ a ∈ as, Stands a (encode a)) :
    ListOf Stands as (.arr (as.map encode)) :=
  ⟨_, rfl, List.forall₂_map_right_iff.2 (List.forall₂_same.2 h)⟩

theorem listOf_map_eq (encode : α → Json) (as : List α) :
    ListOf (fun a j => j = encode a) as (.arr (as.map encode)) :=
  listOf_map fun _ _ => rfl

end Lists

end QubitRouting.Json
