import QubitRouting.Proofs.Simulation.Wave

/-!
Registers hold the part of a wave below their size, before and after every gate. A gate is applied
in place, pair by pair: when the pairs with lower index below `i` have been overwritten, exactly
their amplitudes are those after the gate.
-/

namespace QubitRouting

theorem flipLine_lt {n k : Nat} {q : Qubit} (hk : k < lineIndex n) (hq : q < n) :
    flipLine q k < lineIndex n :=
  Nat.xor_lt_two_pow hk (Nat.pow_lt_pow_right (by decide) hq)

theorem add_lineIndex {k : Nat} {q : Qubit} (h : k.testBit q = false) :
    k + lineIndex q = flipLine q k := by
  have hk : k = 2 ^ q * (k / 2 ^ q) + k % 2 ^ q := (Nat.div_add_mod k (2 ^ q)).symm
  have hlow : k % 2 ^ q < 2 ^ q := Nat.mod_lt k (Nat.two_pow_pos q)
  have heven : k / 2 ^ q % 2 = 0 := by
    rw [Nat.testBit_eq_decide_div_mod_eq] at h
    have := of_decide_eq_false h
    omega
  have hsum : k + lineIndex q = 2 ^ q * (k / 2 ^ q + 1) + k % 2 ^ q := by
    have : lineIndex q = 2 ^ q := rfl
    rw [Nat.mul_add, Nat.mul_one]
    omega
  refine Nat.eq_of_testBit_eq fun p => ?_
  rw [testBit_flipLine, hsum, Nat.testBit_two_pow_mul_add _ hlow]
  nth_rewrite 3 [hk]
  rw [Nat.testBit_two_pow_mul_add _ hlow]
  rcases Nat.lt_trichotomy p q with hp | rfl | hp
  · simp [hp, hp.ne']
  · simp only [Nat.lt_irrefl, if_false, Nat.sub_self, Nat.testBit_zero]
    simp [heven, Nat.add_mod]
  · have hpq : p - q = (p - q - 1) + 1 := by omega
    have hdiv : (k / 2 ^ q + 1) / 2 = k / 2 ^ q / 2 := by omega
    rw [if_neg (by omega), if_neg (by omega), hpq, Nat.testBit_succ, Nat.testBit_succ, hdiv]
    simp [hp.ne]

theorem fires_cons {c : Control} {rest : List Control} {k : Nat} :
    Fires (c :: rest) k ↔ k.testBit c.line = c.positive ∧ Fires rest k := List.forall_mem_cons

theorem fires?_eq {index : Nat} {controls : List Control}
    (h : ∀ c ∈ controls, c.line < indexBits) :
    fires? index controls = some (decide (Fires controls index)) := by
  induction controls with
  | nil => simp [fires?, Fires]
  | cons c rest ih =>
    obtain ⟨hc, hrest⟩ := List.forall_mem_cons.1 h
    rw [fires?, if_neg (Nat.not_le.2 hc), ih hrest]
    by_cases hv : index.testBit c.line = c.positive <;> simp [fires_cons, hv]

namespace Register

variable {R : Type}

def Holds (r : Register R) (ψ : Wave R) : Prop := ∀ k (h : k < r.size), r[k] = ψ k

theorem exists_holds {r : Register R} (h : 0 < r.size) : ∃ ψ, r.Holds ψ :=
  ⟨fun k => r.getD k r[0], fun k hk => by simp [hk]⟩

theorem Holds.getElem?_eq {r : Register R} {ψ : Wave R} (h : r.Holds ψ) {k : Nat}
    (hk : k < r.size) : r[k]? = some (ψ k) := by
  rw [Array.getElem?_eq_getElem hk, h k hk]

def lower (target : Qubit) (k : Nat) : Nat := if k.testBit target then flipLine target k else k

theorem lower_eq_iff {target : Qubit} {i k : Nat} (hi : i.testBit target = false) :
    lower target k = i ↔ k = i ∨ k = flipLine target i := by
  unfold lower
  constructor
  · split_ifs
    · rintro rfl
      simp
    · exact Or.inl
  · rintro (rfl | rfl) <;> simp [hi]

variable [Add R] [Mul R]

/-- The wave after the pairs with lower index below `i` have been overwritten. -/
def partly (m : Matrix2 R) (controls : List Control) (target : Qubit) (ψ : Wave R) (i : Nat) :
    Wave R :=
  fun k => if lower target k < i then Wave.actOn m controls target ψ k else ψ k

section Pair

variable {m : Matrix2 R} {controls : List Control} {target : Qubit} {ψ : Wave R} {i : Nat}

theorem testBit_lower (target : Qubit) (k : Nat) : (lower target k).testBit target = false := by
  unfold lower
  split_ifs with h
  · simp [h]
  · simpa using h

theorem partly_zero : partly m controls target ψ 0 = ψ := by
  funext k
  simp [partly]

theorem partly_succ_of_idle (ht : target ∉ controls.map Control.line)
    (h : i.testBit target = true ∨ ¬ Fires controls i) :
    partly m controls target ψ (i + 1) = partly m controls target ψ i := by
  funext k
  unfold partly
  by_cases hk : lower target k = i
  · have hi : i.testBit target = false := hk ▸ testBit_lower target k
    have hidle : ¬ Fires controls k := by
      have hfires : ¬ Fires controls i := h.resolve_left (by simp [hi])
      rcases (lower_eq_iff hi).1 hk with rfl | rfl
      · exact hfires
      · rwa [fires_flipLine ht]
    simp [Wave.actOn, hidle]
  · simp [show lower target k < i + 1 ↔ lower target k < i by omega]

theorem partly_lower (m : Matrix2 R) (controls : List Control) (ψ : Wave R)
    (hi : i.testBit target = false) :
    partly m controls target ψ i i = ψ i ∧
      partly m controls target ψ i (flipLine target i) = ψ (flipLine target i) := by
  have low : lower target i = i := (lower_eq_iff hi).2 (Or.inl rfl)
  have high : lower target (flipLine target i) = i := (lower_eq_iff hi).2 (Or.inr rfl)
  constructor
  · simp [partly, low]
  · simp [partly, high]

theorem partly_succ (ht : target ∉ controls.map Control.line) (hi : i.testBit target = false)
    (hf : Fires controls i) (k : Nat) :
    partly m controls target ψ (i + 1) k =
      if k = flipLine target i then m.a10 * ψ i + m.a11 * ψ (flipLine target i)
      else if k = i then m.a00 * ψ i + m.a01 * ψ (flipLine target i)
      else partly m controls target ψ i k := by
  have hne : i ≠ flipLine target i := by
    intro h
    have := testBit_flipLine_self target i
    rw [← h, hi] at this
    cases this
  by_cases hk : lower target k = i
  · have hf' := (fires_flipLine ht i).2 hf
    rcases (lower_eq_iff hi).1 hk with rfl | rfl
    · simp [partly, hk, hne, Wave.actOn, hf, hi]
    · simp [partly, hk, Wave.actOn, hf', hi]
  · have := mt (lower_eq_iff hi).2 hk
    rw [not_or] at this
    simp [partly, this.1, this.2, show lower target k < i + 1 ↔ lower target k < i by omega]

end Pair

section Act

variable {n : Nat} {ψ : Wave R}

theorem actAt?_of_fires {m : Matrix2 R} {controls : List Control} {target : Qubit} {i : Nat}
    {r : Register R} (hb : i.testBit target = false) (hf : fires? i controls = some true)
    (hi : i < r.size) (hj : flipLine target i < r.size) :
    actAt? m controls target r i =
      some ((r.setIfInBounds i (m.a00 * r[i] + m.a01 * r[flipLine target i])).setIfInBounds
        (flipLine target i) (m.a10 * r[i] + m.a11 * r[flipLine target i])) := by
  simp [actAt?, hb, hf, add_lineIndex hb, hi, hj]

theorem actAt?_holds {m : Matrix2 R} {controls : List Control} {target : Qubit} {i : Nat}
    {r : Register R} (hn : n ≤ indexBits) (hr : r.size = lineIndex n) (hq : target < n)
    (hc : ∀ c ∈ controls, c.line < n) (ht : target ∉ controls.map Control.line)
    (hi : i < r.size) (h : r.Holds (partly m controls target ψ i)) :
    ∃ r', actAt? m controls target r i = some r' ∧ r'.size = r.size ∧
      r'.Holds (partly m controls target ψ (i + 1)) := by
  have hbits : ∀ c ∈ controls, c.line < indexBits := fun c hm => Nat.lt_of_lt_of_le (hc c hm) hn
  cases hb : i.testBit target with
  | true =>
    refine ⟨r, by simp [actAt?, hb], rfl, ?_⟩
    rwa [partly_succ_of_idle ht (Or.inl hb)]
  | false =>
    by_cases hf : Fires controls i
    · have hj : flipLine target i < r.size := hr ▸ flipLine_lt (hr ▸ hi) hq
      obtain ⟨hlow, hhigh⟩ := partly_lower m controls ψ hb
      have hf? : fires? i controls = some true := by simp [fires?_eq hbits, hf]
      refine ⟨_, actAt?_of_fires hb hf? hi hj, by simp, ?_⟩
      intro k hk
      have hk' : k < r.size := by simpa using hk
      rw [partly_succ ht hb hf k, Array.getElem_setIfInBounds (by simpa using hk'),
        Array.getElem_setIfInBounds hk', h i hi, h _ hj, hlow, hhigh, h k hk']
      simp only [eq_comm]
    · refine ⟨r, ?_, rfl, ?_⟩
      · simp [actAt?, hb, fires?_eq hbits, hf]
      · rwa [partly_succ_of_idle ht (Or.inr hf)]

def afterRounds? (m : Matrix2 R) (controls : List Control) (target : Qubit) (r : Register R)
    (i : Nat) : Option (Register R) :=
  i.fold (fun i _ state => state.bind (actAt? m controls target · i)) (some r)

/-- After `i` rounds, exactly the pairs with lower index below `i` have been overwritten. -/
theorem afterRounds?_holds {m : Matrix2 R} {controls : List Control} {target : Qubit}
    {r : Register R} (hn : n ≤ indexBits) (hr : r.size = lineIndex n) (hq : target < n)
    (hc : ∀ c ∈ controls, c.line < n) (ht : target ∉ controls.map Control.line) (h : r.Holds ψ)
    {i : Nat} (hi : i ≤ r.size) :
    ∃ r', afterRounds? m controls target r i = some r' ∧ r'.size = r.size ∧
      r'.Holds (partly m controls target ψ i) := by
  induction i with
  | zero => exact ⟨r, rfl, rfl, by rwa [partly_zero]⟩
  | succ i ih =>
    obtain ⟨r₁, hfold, hsize, hholds⟩ := ih (Nat.le_of_succ_le hi)
    obtain ⟨r₂, hact, hsize₂, hholds₂⟩ :=
      actAt?_holds hn (hsize.trans hr) hq hc ht (hsize.symm ▸ hi) hholds
    refine ⟨r₂, ?_, hsize₂.trans hsize, hholds₂⟩
    rw [afterRounds?] at hfold ⊢
    rw [Nat.fold_succ, hfold]
    exact hact

theorem actOn?_holds {m : Matrix2 R} {controls : List Control} {target : Qubit} {r : Register R}
    (hn : n ≤ indexBits) (hr : r.size = lineIndex n) (hq : target < n)
    (hc : ∀ c ∈ controls, c.line < n) (ht : target ∉ controls.map Control.line) (h : r.Holds ψ) :
    ∃ r', actOn? m controls r target = some r' ∧ r'.size = r.size ∧
      r'.Holds (Wave.actOn m controls target ψ) := by
  obtain ⟨r', hrounds, hsize, hholds⟩ := afterRounds?_holds (m := m) hn hr hq hc ht h le_rfl
  refine ⟨r', ?_, hsize, ?_⟩
  · rw [actOn?, if_neg (Nat.not_le.2 (Nat.lt_of_lt_of_le hq hn))]
    exact hrounds
  · intro k hk
    have hlow : lower target k < r.size := by
      unfold lower
      split_ifs
      · exact hr ▸ flipLine_lt (hr ▸ hsize ▸ hk) hq
      · exact hsize ▸ hk
    rw [hholds k hk, partly, if_pos hlow]

theorem act?_holds (matrix : GateKind → Matrix2 R) {g : Gate} {r : Register R}
    (hn : n ≤ indexBits) (hr : r.size = lineIndex n) (hg : g.Fits n) (h : r.Holds ψ) :
    ∃ r', act? matrix r g = some r' ∧ r'.size = r.size ∧ r'.Holds (Wave.act matrix g ψ) := by
  have hc : ∀ c ∈ g.controls, c.line < n := fun c hm =>
    hg.inside c.line (List.mem_append_left _ (List.mem_map_of_mem hm))
  have targets : ∀ q ∈ g.targets, q < n ∧ q ∉ g.controls.map Control.line := by
    intro q hq
    refine ⟨hg.inside q (List.mem_append_right _ hq), fun hm => ?_⟩
    exact (List.nodup_append.1 hg.distinct).2.2 q hm q hq rfl
  unfold act? Wave.act
  generalize g.targets = qs at targets ⊢
  induction qs generalizing r ψ with
  | nil => exact ⟨r, rfl, rfl, h⟩
  | cons q qs ih =>
    obtain ⟨⟨hq, ht⟩, hqs⟩ := List.forall_mem_cons.1 targets
    obtain ⟨r₁, hact, hsize, hholds⟩ := actOn?_holds (m := matrix g.kind) hn hr hq hc ht h
    obtain ⟨r₂, hrest, hsize₂, hholds₂⟩ := ih (hsize.trans hr) hholds hqs
    refine ⟨r₂, ?_, hsize₂.trans hsize, hholds₂⟩
    rw [List.foldlM_cons, hact]
    exact hrest

theorem run?_holds (matrix : GateKind → Matrix2 R) {gates : List Gate} {r : Register R}
    (hn : n ≤ indexBits) (hr : r.size = lineIndex n) (hg : ∀ g ∈ gates, g.Fits n)
    (h : r.Holds ψ) :
    ∃ r', run? matrix r gates = some r' ∧ r'.size = r.size ∧
      r'.Holds (Wave.run matrix gates ψ) := by
  induction gates generalizing r ψ with
  | nil => exact ⟨r, rfl, rfl, h⟩
  | cons g gates ih =>
    obtain ⟨fits, rest⟩ := List.forall_mem_cons.1 hg
    obtain ⟨r₁, hact, hsize, hholds⟩ := act?_holds matrix hn hr fits h
    obtain ⟨r₂, hrun, hsize₂, hholds₂⟩ := ih (hsize.trans hr) rest hholds
    refine ⟨r₂, ?_, hsize₂.trans hsize, hholds₂⟩
    rw [run?, List.foldlM_cons, hact]
    exact hrun

end Act

end Register

/-- Two lists of gates act alike on states of `n` lines: on amplitudes of all indices, and on every
register whose indices have bits for the lines. -/
structure ActAlike {R : Type} [Add R] [Mul R] (matrix : GateKind → Matrix2 R) (n : Nat)
    (gs hs : List Gate) : Prop where
  waves : ∀ ψ, Wave.run matrix gs ψ = Wave.run matrix hs ψ
  registers : n ≤ indexBits → ∀ r : Register R, r.size = lineIndex n →
    ∃ r', r.run? matrix gs = some r' ∧ r.run? matrix hs = some r'

theorem ActAlike.of_run_eq {R : Type} [Add R] [Mul R] {matrix : GateKind → Matrix2 R} {n : Nat}
    {gs hs : List Gate} (hg : ∀ g ∈ gs, g.Fits n) (hh : ∀ g ∈ hs, g.Fits n)
    (h : Wave.run matrix gs = Wave.run matrix hs) : ActAlike matrix n gs hs := by
  refine ⟨fun ψ => congrFun h ψ, fun hn r hr => ?_⟩
  obtain ⟨ψ, start⟩ := Register.exists_holds (hr ▸ Nat.two_pow_pos n : 0 < r.size)
  obtain ⟨r₁, run₁, size₁, holds₁⟩ := Register.run?_holds matrix hn hr hg start
  obtain ⟨r₂, run₂, size₂, holds₂⟩ := Register.run?_holds matrix hn hr hh start
  have same : r₁ = r₂ := by
    refine Array.ext (size₁.trans size₂.symm) fun k hk₁ hk₂ => ?_
    rw [holds₁ k hk₁, holds₂ k hk₂, h]
  exact ⟨r₂, same ▸ run₁, run₂⟩

end QubitRouting
