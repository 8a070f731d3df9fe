import Mathlib.Data.List.Nodup
import Mathlib.Data.List.Perm.Subperm
import Mathlib.Data.Set.Function
import QubitRouting.Proofs.Simulation.Register

/-!
Gates on lines that were moved. A list of images places the lines of a circuit on a larger device:
an index of the device is made of the values of the lines, spread over their images, and of the
values of all other qubits. Moved gates act on the values of the lines as the gates did before they
were moved, whatever the other qubits hold, and leave those as they are.
-/

namespace QubitRouting

def withLine (q : Qubit) (value : Bool) (k : Nat) : Nat :=
  if k.testBit q = value then k else flipLine q k

/-- The index of the device with the values of `j` on the images of the lines, and with those of `k`
on all other qubits. -/
def spread : (images : List Qubit) → (k j : Nat) → Nat
  | [], k, _ => k
  | q :: rest, k, j => withLine q (j.testBit 0) (spread rest k (j / 2))

def gather : (images : List Qubit) → (k : Nat) → Nat
  | [], _ => 0
  | q :: rest, k => 2 * gather rest k + (k.testBit q).toNat

section Bits

variable {images : List Qubit} {n i k j : Nat} {p q : Qubit} {value : Bool}

theorem testBit_withLine : (withLine q value k).testBit p =
    if q = p then value else k.testBit p := by
  by_cases hp : q = p
  · subst hp
    rw [if_pos rfl, withLine]
    by_cases h : k.testBit q = value
    · rw [if_pos h, h]
    · rw [if_neg h, testBit_flipLine_self]
      cases value <;> simpa using h
  · rw [if_neg hp, withLine]
    split_ifs
    · rfl
    · exact testBit_flipLine_of_ne hp k

theorem testBit_spread_idle (hp : p ∉ images) : (spread images k j).testBit p = k.testBit p := by
  induction images generalizing j with
  | nil => rfl
  | cons q rest ih =>
    obtain ⟨hne, hrest⟩ := not_or.1 (mt List.mem_cons.2 hp)
    rw [spread, testBit_withLine, if_neg (Ne.symm hne), ih hrest]

theorem testBit_spread (hd : images.Nodup) (hi : images[i]? = some p) :
    (spread images k j).testBit p = j.testBit i := by
  induction images generalizing i j with
  | nil => cases hi
  | cons q rest ih =>
    obtain ⟨hq, hrest⟩ := List.nodup_cons.1 hd
    rw [spread, testBit_withLine]
    cases i with
    | zero =>
      rw [if_pos (Option.some.inj hi)]
    | succ i =>
      have hmem : p ∈ rest := List.mem_of_getElem? hi
      have hne : q ≠ p := fun e => hq (e ▸ hmem)
      rw [if_neg hne, ih hrest hi, Nat.testBit_succ]

theorem spread_gather : spread images k (gather images k) = k := by
  induction images with
  | nil => rfl
  | cons q rest ih =>
    have hbit : (gather (q :: rest) k).testBit 0 = k.testBit q := by
      rw [gather]
      cases k.testBit q <;> simp
    have hrest : gather (q :: rest) k / 2 = gather rest k := by
      have := (k.testBit q).toNat_le
      rw [gather]
      omega
    rw [spread, hbit, hrest, ih, withLine, if_pos rfl]

theorem spread_lt (hin : ∀ q ∈ images, q < n) (hk : k < lineIndex n) :
    spread images k j < lineIndex n := by
  induction images generalizing j with
  | nil => exact hk
  | cons q rest ih =>
    obtain ⟨hq, hrest⟩ := List.forall_mem_cons.1 hin
    unfold spread withLine
    split_ifs
    · exact ih hrest
    · exact flipLine_lt (ih hrest) hq

theorem flipLine_spread (hd : images.Nodup) (hi : images[i]? = some p) :
    flipLine p (spread images k j) = spread images k (flipLine i j) := by
  refine Nat.eq_of_testBit_eq fun q => ?_
  rw [testBit_flipLine]
  by_cases hq : q ∈ images
  · obtain ⟨l, hl⟩ := List.mem_iff_getElem?.1 hq
    have hsame : p = q ↔ i = l := by
      constructor
      · rintro rfl
        have hlt := (List.getElem?_eq_some_iff.1 hi).1
        exact (List.getElem?_inj hlt hd).1 (hi.trans hl.symm)
      · rintro rfl
        exact Option.some.inj (hi.symm.trans hl)
    rw [testBit_spread hd hl, testBit_spread hd hl, testBit_flipLine]
    simp only [hsame]
  · have hne : p ≠ q := fun e => hq (e ▸ List.mem_of_getElem? hi)
    rw [testBit_spread_idle hq, testBit_spread_idle hq]
    simp [hne]

end Bits

def imageOf (images : List Qubit) (line : Qubit) : Qubit := images.getD line 0

theorem getElem?_imageOf {images : List Qubit} {q : Qubit} (hq : q < images.length) :
    images[q]? = some (imageOf images q) := by
  rw [imageOf, List.getD_eq_getElem?_getD, List.getElem?_eq_getElem hq]
  rfl

/-- A gate fits with its lines renamed when they stay different and come to lie inside. -/
theorem Gate.Fits.mapLines_iff {f : Qubit → Qubit} {lines n : Nat} {g : Gate} (hg : g.Fits lines) :
    (g.mapLines f).Fits n ↔ Set.InjOn f {q | q ∈ g.lines} ∧ ∀ q ∈ g.lines, f q < n := by
  have htargets : (g.mapLines f).targets ≠ [] := mt List.map_eq_nil_iff.1 hg.targets_ne
  have hdistinct : (g.mapLines f).lines.Nodup ↔ Set.InjOn f {q | q ∈ g.lines} := by
    rw [lines_mapLines, List.nodup_map_iff_inj_on hg.distinct]
    rfl
  have hinside : (∀ q ∈ (g.mapLines f).lines, q < n) ↔ ∀ q ∈ g.lines, f q < n := by
    rw [lines_mapLines, List.forall_mem_map]
  constructor
  · rintro ⟨-, hd, hin⟩
    exact ⟨hdistinct.1 hd, hinside.1 hin⟩
  · rintro ⟨hd, hin⟩
    exact ⟨htargets, hdistinct.2 hd, hinside.2 hin⟩

theorem Gate.Fits.moved {images : List Qubit} {n : Nat} (hd : images.Nodup)
    (hin : ∀ q ∈ images, q < n) {g : Gate} (hg : g.Fits images.length) :
    (g.mapLines (imageOf images)).Fits n := by
  refine hg.mapLines_iff.2 ⟨fun p hp q hq himage => ?_, fun q hq => hin _ ?_⟩
  · have hp := getElem?_imageOf (hg.inside p hp)
    have hq := getElem?_imageOf (hg.inside q hq)
    rw [himage] at hp
    exact (List.getElem?_inj (List.getElem?_eq_some_iff.1 hp).1 hd).1 (hp.trans hq.symm)
  · exact List.mem_of_getElem? (getElem?_imageOf (hg.inside q hq))

namespace Wave

variable {R : Type} [Add R] [Mul R] {images : List Qubit}

theorem fires_spread (hd : images.Nodup) {controls : List Control}
    (hc : ∀ c ∈ controls, c.line < images.length) (k j : Nat) :
    Fires (controls.map fun c => { c with line := imageOf images c.line }) (spread images k j) ↔
      Fires controls j := by
  unfold Fires
  rw [List.forall_mem_map]
  refine forall₂_congr fun c hm => ?_
  rw [testBit_spread hd (getElem?_imageOf (hc c hm))]

theorem actOn_spread (m : Matrix2 R) (hd : images.Nodup) {controls : List Control} {q : Qubit}
    (hc : ∀ c ∈ controls, c.line < images.length) (hq : q < images.length) (ψ : Wave R)
    (k j : Nat) :
    actOn m (controls.map fun c => { c with line := imageOf images c.line }) (imageOf images q) ψ
      (spread images k j) = actOn m controls q (fun j => ψ (spread images k j)) j := by
  have himage := getElem?_imageOf hq
  simp only [actOn, fires_spread hd hc, testBit_spread hd himage, flipLine_spread hd himage]

theorem act_spread (matrix : GateKind → Matrix2 R) (hd : images.Nodup) {g : Gate}
    (hg : ∀ q ∈ g.lines, q < images.length) (ψ : Wave R) (k : Nat) :
    (fun j => act matrix (g.mapLines (imageOf images)) ψ (spread images k j)) =
      act matrix g fun j => ψ (spread images k j) := by
  have hc : ∀ c ∈ g.controls, c.line < images.length := fun c hm =>
    hg c.line (List.mem_append_left _ (List.mem_map_of_mem hm))
  have ht : ∀ q ∈ g.targets, q < images.length := fun q hm => hg q (List.mem_append_right _ hm)
  simp only [act, Gate.mapLines, List.foldl_map]
  generalize g.targets = targets at ht
  induction targets generalizing ψ with
  | nil => rfl
  | cons q rest ih =>
    obtain ⟨hq, hrest⟩ := List.forall_mem_cons.1 ht
    rw [List.foldl_cons, List.foldl_cons, ih _ hrest]
    congr 1
    funext j
    exact actOn_spread _ hd hc hq ψ k j

/-- Whatever the other qubits hold, moved gates act on the values of the lines as the gates do. -/
theorem run_spread (matrix : GateKind → Matrix2 R) (hd : images.Nodup) {gates : List Gate}
    (hg : ∀ g ∈ gates, ∀ q ∈ g.lines, q < images.length) (ψ : Wave R) (k : Nat) :
    (fun j => run matrix (gates.map (Gate.mapLines (imageOf images))) ψ (spread images k j)) =
      run matrix gates fun j => ψ (spread images k j) := by
  induction gates generalizing ψ with
  | nil => rfl
  | cons g rest ih =>
    obtain ⟨hgate, hrest⟩ := List.forall_mem_cons.1 hg
    rw [List.map_cons, run_cons, ih hrest, act_spread matrix hd hgate]
    rfl

end Wave

namespace Register

variable {R : Type} [Zero R]

/-- The amplitudes of the lines while the other qubits hold what they do in `k`. -/
def slice (images : List Qubit) (k : Nat) (r : Register R) : Register R :=
  Array.ofFn fun j : Fin (lineIndex images.length) => r.getD (spread images k j) 0

variable {images : List Qubit} {n k : Nat} {r : Register R} {ψ : Wave R}

theorem size_slice : (slice images k r).size = lineIndex images.length := Array.size_ofFn

theorem Holds.slice (h : r.Holds ψ) (hr : r.size = lineIndex n) (hin : ∀ q ∈ images, q < n)
    (hk : k < lineIndex n) : (slice images k r).Holds fun j => ψ (spread images k j) := by
  intro j hj
  have hspread : spread images k j < r.size := hr ▸ spread_lt hin hk
  simp [Register.slice, hspread, h _ hspread]

theorem run?_slice {R : Type} [CommRing R] {matrix : GateKind → Matrix2 R} {images : List Qubit}
    {n : Nat} {placed gates : List Gate} {r : Register R} (hd : images.Nodup)
    (hin : ∀ q ∈ images, q < n) (hplaced : ∀ g ∈ placed, g.Fits n)
    (hg : ∀ g ∈ gates, g.Fits images.length)
    (hwaves : ∀ ψ k, (fun j => Wave.run matrix placed ψ (spread images k j)) =
      Wave.run matrix gates fun j => ψ (spread images k j))
    (hn : n ≤ indexBits) (hr : r.size = lineIndex n) :
    ∃ r', r.run? matrix placed = some r' ∧ ∀ k < lineIndex n,
      (r.slice images k).run? matrix gates = some (r'.slice images k) := by
  have hlen : images.length ≤ n := by
    have hsub : images ⊆ List.range n := fun q hq => List.mem_range.2 (hin q hq)
    simpa using (hd.subperm hsub).length_le
  let ψ : Wave R := fun k => r.getD k 0
  have start : r.Holds ψ := fun k hk => by simp [ψ, hk]
  obtain ⟨r', hrun, hsize, hholds⟩ := run?_holds matrix hn hr hplaced start
  refine ⟨r', hrun, fun k hk => ?_⟩
  obtain ⟨t, ht, htsize, htholds⟩ := run?_holds matrix (hlen.trans hn) size_slice hg
    (start.slice hr hin hk)
  have hslice := hholds.slice (hsize.trans hr) hin hk
  have same : t = r'.slice images k := by
    refine Array.ext (htsize.trans (size_slice.trans size_slice.symm)) fun j hj hj' => ?_
    rw [htholds j hj, hslice j hj', ← hwaves ψ k]
  rw [ht, same]

end Register

/-- Gates on the qubits of a device do what other gates do on the lines, and leave all qubits alone
that are the image of no line: they act like the gates moved to the images, and what they make of an
amplitude is what the gates make of it among the amplitudes where the other qubits hold the same. -/
structure Realizes {R : Type} [CommRing R] (matrix : GateKind → Matrix2 R) (images : List Qubit)
    (n : Nat) (placed gates : List Gate) : Prop where
  moved : ActAlike matrix n placed (gates.map (Gate.mapLines (imageOf images)))
  waves : ∀ ψ k, Wave.run matrix placed ψ k =
    Wave.run matrix gates (fun j => ψ (spread images k j)) (gather images k)
  registers : n ≤ indexBits → ∀ r : Register R, r.size = lineIndex n →
    ∃ r', r.run? matrix placed = some r' ∧ ∀ k < lineIndex n,
      (r.slice images k).run? matrix gates = some (r'.slice images k)

theorem Realizes.of_run_eq {R : Type} [CommRing R] {matrix : GateKind → Matrix2 R}
    {images : List Qubit} {n : Nat} {placed gates : List Gate} (hd : images.Nodup)
    (hin : ∀ q ∈ images, q < n) (hplaced : ∀ g ∈ placed, g.Fits n)
    (hg : ∀ g ∈ gates, g.Fits images.length)
    (h : Wave.run matrix placed =
      Wave.run matrix (gates.map (Gate.mapLines (imageOf images)))) :
    Realizes matrix images n placed gates := by
  have hlines : ∀ g ∈ gates, ∀ q ∈ g.lines, q < images.length := fun g hm => (hg g hm).inside
  have hspread : ∀ ψ k, (fun j => Wave.run matrix placed ψ (spread images k j)) =
      Wave.run matrix gates fun j => ψ (spread images k j) := by
    intro ψ k
    rw [h]
    exact Wave.run_spread matrix hd hlines ψ k
  have hmoved : ∀ g ∈ gates, (g.mapLines (imageOf images)).Fits n := fun g hm =>
    (hg g hm).moved hd hin
  refine ⟨.of_run_eq hplaced (List.forall_mem_map.2 hmoved) h, fun ψ k => ?_, fun hn r hr => ?_⟩
  · have := congrFun (hspread ψ k) (gather images k)
    rwa [spread_gather] at this
  · exact Register.run?_slice hd hin hplaced hg hspread hn hr

end QubitRouting
