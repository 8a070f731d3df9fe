import Mathlib.Data.List.Basic
import Mathlib.Data.List.Forall2

/-!
Computations that may fail, and lists of them. A sequence of two gives a value exactly when both do,
and fails with the error of the first that does; so does a list. A list of optional values has a
value exactly when all of them have.
-/

namespace QubitRouting

section Sequence

variable {α β ε : Type} {x : Except ε α} {f : α → Except ε β} {e : ε} {a : α} {b : β}

@[simp] theorem ok_bind (a : α) (f : α → Except ε β) : (Except.ok a >>= f) = f a := rfl

@[simp] theorem error_bind (e : ε) (f : α → Except ε β) :
    ((Except.error e : Except ε α) >>= f) = .error e := rfl

theorem bind_eq_ok_iff : (x >>= f) = .ok b ↔ ∃ a, x = .ok a ∧ f a = .ok b := by
  cases x with
  | ok a => simp
  | error e => simp

theorem bind_eq_error_iff :
    (x >>= f) = .error e ↔ x = .error e ∨ ∃ a, x = .ok a ∧ f a = .error e := by
  cases x with
  | ok a => simp
  | error e => simp

theorem isOk_iff : x.isOk = true ↔ ∃ a, x = .ok a := by
  cases x <;> simp [Except.isOk, Except.toBool]

end Sequence

section Lists

variable {α β ε : Type} {f : α → Except ε β}

theorem mapM_ok_of_forall {P : α → β → Prop} {l : List α}
    (h : ∀ a ∈ l, ∃ b, f a = .ok b ∧ P a b) :
    ∃ bs, l.mapM f = .ok bs ∧ List.Forall₂ P l bs := by
  induction l with
  | nil => exact ⟨[], rfl, .nil⟩
  | cons a l ih =>
    obtain ⟨⟨b, hb, hP⟩, rest⟩ := List.forall_mem_cons.1 h
    obtain ⟨bs, hbs, hPs⟩ := ih rest
    refine ⟨b :: bs, ?_, .cons hP hPs⟩
    rw [List.mapM_cons, hb, ok_bind, hbs]
    rfl

theorem exists_of_forall₂ {R : α → β → Prop} {l : List α} {bs : List β} (h : List.Forall₂ R l bs)
    {a : α} (ha : a ∈ l) : ∃ b ∈ bs, R a b := by
  induction h with
  | nil => cases ha
  | cons hab _ ih =>
    rcases List.mem_cons.1 ha with rfl | ha
    · exact ⟨_, List.mem_cons_self, hab⟩
    · obtain ⟨b, hb, hR⟩ := ih ha
      exact ⟨b, List.mem_cons_of_mem _ hb, hR⟩

theorem mapM_eq_ok_iff {R : α → β → Prop} (h : ∀ a b, f a = .ok b ↔ R a b) {l : List α}
    {bs : List β} : l.mapM f = .ok bs ↔ List.Forall₂ R l bs := by
  induction l generalizing bs with
  | nil => simp [pure, Except.pure, eq_comm]
  | cons a l ih =>
    rw [List.mapM_cons, bind_eq_ok_iff, List.forall₂_cons_left_iff]
    constructor
    · rintro ⟨b, hb, hrest⟩
      obtain ⟨bs', hbs', heq⟩ := bind_eq_ok_iff.1 hrest
      exact ⟨b, bs', (h a b).1 hb, ih.1 hbs', (Except.ok.inj heq).symm⟩
    · rintro ⟨b, bs', hb, hbs', rfl⟩
      exact ⟨b, (h a b).2 hb, bind_eq_ok_iff.2 ⟨bs', ih.2 hbs', rfl⟩⟩

theorem mapM_eq_ok_map {k : α → β} {l : List α} (h : ∀ a ∈ l, f a = .ok (k a)) :
    l.mapM f = .ok (l.map k) := by
  induction l with
  | nil => rfl
  | cons a l ih =>
    obtain ⟨ha, hrest⟩ := List.forall_mem_cons.1 h
    rw [List.mapM_cons, ha, ok_bind, ih hrest]
    rfl

theorem exists_of_mem_mapM {l : List α} {bs : List β} {b : β} (h : l.mapM f = .ok bs)
    (hb : b ∈ bs) : ∃ a ∈ l, f a = .ok b :=
  exists_of_forall₂ ((mapM_eq_ok_iff fun _ _ => Iff.rfl).1 h).flip hb

theorem map_eq_of_mapM {l : List α} {bs : List β} (h : l.mapM f = .ok bs) :
    l.map f = bs.map .ok := by
  induction l generalizing bs with
  | nil =>
    obtain rfl := Except.ok.inj h
    rfl
  | cons a l ih =>
    rw [List.mapM_cons] at h
    obtain ⟨b, hb, h⟩ := bind_eq_ok_iff.1 h
    obtain ⟨bs, hbs, h⟩ := bind_eq_ok_iff.1 h
    obtain rfl := Except.ok.inj h
    rw [List.map_cons, List.map_cons, hb, ih hbs]

theorem exists_of_mapM_error {l : List α} {e : ε} (h : l.mapM f = .error e) :
    ∃ a ∈ l, f a = .error e := by
  induction l with
  | nil => cases h
  | cons a l ih =>
    rw [List.mapM_cons, bind_eq_error_iff] at h
    rcases h with ha | ⟨c, -, h⟩
    · exact ⟨a, List.mem_cons_self, ha⟩
    · rcases bind_eq_error_iff.1 h with hrest | ⟨cs, -, h⟩
      · obtain ⟨b, hb, hf⟩ := ih hrest
        exact ⟨b, List.mem_cons_of_mem a hb, hf⟩
      · cases h

theorem mapM_error_of_first {e : ε} {a : α} {before after : List α}
    (h : ∀ a ∈ before, ∃ b, f a = .ok b) (he : f a = .error e) :
    (before ++ a :: after).mapM f = .error e := by
  induction before with
  | nil => rw [List.nil_append, List.mapM_cons, he, error_bind]
  | cons b before ih =>
    obtain ⟨⟨c, hc⟩, rest⟩ := List.forall_mem_cons.1 h
    rw [List.cons_append, List.mapM_cons, hc, ok_bind, ih rest, error_bind]

end Lists

theorem mapM_eq_some_iff {α β : Type} {f : α → Option β} {l : List α} {bs : List β} :
    l.mapM f = some bs ↔ List.Forall₂ (fun a b => f a = some b) l bs := by
  induction l generalizing bs with
  | nil => simp [eq_comm]
  | cons a l ih =>
    rw [List.mapM_cons, List.forall₂_cons_left_iff]
    constructor
    · intro h
      obtain ⟨b, hb, hrest⟩ := Option.bind_eq_some_iff.1 h
      obtain ⟨bs', hbs', heq⟩ := Option.bind_eq_some_iff.1 hrest
      exact ⟨b, bs', hb, ih.1 hbs', (Option.some.inj heq).symm⟩
    · rintro ⟨b, bs', hb, hbs', rfl⟩
      exact Option.bind_eq_some_iff.2 ⟨b, hb, Option.bind_eq_some_iff.2 ⟨bs', ih.2 hbs', rfl⟩⟩

end QubitRouting
