import QubitRouting.Proofs.Cancellation.Sweep

/-!
The normal form of a list of gates. Up to exchanges of neighbours without a common line, one more
gate takes away the same gate whatever the order of those before it; gates without a common line may
come in either order, and a gate and its undoing leave what was there. So neither an exchange nor a
deletion in the input changes what a sweep keeps, and a list without a pair to delete is kept whole.
-/

namespace QubitRouting

section Cancelling

variable {g h p : Gate} {K L R : List Gate}

theorem cancelWith?_cons_eq_some (h : cancelWith? g (p :: K) = some R) :
    (p.cancels g = true ∧ R = K) ∨
      (p.touches g = false ∧ ∃ S, cancelWith? g K = some S ∧ R = p :: S) := by
  rw [cancelWith?] at h
  split_ifs at h with ht hc
  · exact .inl ⟨hc, (Option.some.inj h).symm⟩
  · obtain ⟨S, hS, rfl⟩ := Option.map_eq_some_iff.1 h
    exact .inr ⟨by simpa using ht, S, hS, rfl⟩

/-- The gate that is taken away could have been the latest. -/
theorem shuffle_of_cancelWith? (h : cancelWith? g K = some R) :
    ∃ p, p.cancels g = true ∧ Shuffle K (p :: R) := by
  obtain ⟨before, p, after, rfl, rfl, hbefore, hc⟩ := exists_of_cancelWith? h
  refine ⟨p, hc, Shuffle.pass after ?_⟩
  intro x hx
  rw [Gate.touches_congr (Gate.lines_of_cancels hc)]
  exact hbefore x hx

/-- An exchange keeps what a gate takes away: only one of two gates that share no line can be on the
lines of that gate. -/
theorem cancelWith?_of_exchange (hne : g.lines ≠ []) (hKL : Exchange K L)
    (hR : cancelWith? g K = some R) : ∃ S, cancelWith? g L = some S ∧ Shuffle S R := by
  obtain ⟨front, back, hxy⟩ := hKL
  rename_i x y
  induction front generalizing R with
  | nil =>
    rw [List.nil_append] at hR ⊢
    rcases cancelWith?_cons_eq_some hR with ⟨hx, rfl⟩ | ⟨hx, S, hS, rfl⟩
    · have hy : y.touches g = false := by
        rwa [← Gate.touches_congr (Gate.lines_of_cancels hx), Gate.touches_comm]
      rw [cancelWith?_cons_of_apart hy, cancelWith?_cons_of_cancels hne hx]
      exact ⟨_, rfl, .refl⟩
    · rcases cancelWith?_cons_eq_some hS with ⟨hy, rfl⟩ | ⟨hy, T, hT, rfl⟩
      · rw [cancelWith?_cons_of_cancels hne hy]
        exact ⟨_, rfl, .refl⟩
      · rw [cancelWith?_cons_of_apart hy, cancelWith?_cons_of_apart hx, hT]
        exact ⟨_, rfl, .single (Exchange.symm (.swap [] T hxy))⟩
  | cons z front ih =>
    rw [List.cons_append] at hR ⊢
    rcases cancelWith?_cons_eq_some hR with ⟨hz, rfl⟩ | ⟨hz, S, hS, rfl⟩
    · rw [cancelWith?_cons_of_cancels hne hz]
      exact ⟨_, rfl, .single (Exchange.symm (.swap front back hxy))⟩
    · obtain ⟨T, hT, hTS⟩ := ih hS
      rw [cancelWith?_cons_of_apart hz, hT]
      exact ⟨_, rfl, hTS.cons z⟩

theorem cancelWith?_of_shuffle (hne : g.lines ≠ []) (hKL : Shuffle K L)
    (hR : cancelWith? g K = some R) : ∃ S, cancelWith? g L = some S ∧ Shuffle S R := by
  induction hKL with
  | refl => exact ⟨R, hR, .refl⟩
  | tail _ step ih =>
    obtain ⟨S, hS, hSR⟩ := ih
    obtain ⟨T, hT, hTS⟩ := cancelWith?_of_exchange hne step hS
    exact ⟨T, hT, hTS.trans hSR⟩

theorem cancelWith?_eq_none_of_shuffle (hne : g.lines ≠ []) (hKL : Shuffle K L)
    (hK : cancelWith? g K = none) : cancelWith? g L = none := by
  cases hL : cancelWith? g L with
  | none => rfl
  | some R =>
    obtain ⟨S, hS, -⟩ := cancelWith?_of_shuffle hne hKL.symm hL
    rw [hK] at hS
    cases hS

end Cancelling

section Absorbing

variable {g h p : Gate} {K L R : List Gate}

theorem absorb_of_some (hR : cancelWith? g K = some R) : absorb K g = R := by
  rw [absorb, hR, Option.getD_some]

theorem absorb_of_none (hK : cancelWith? g K = none) : absorb K g = g :: K := by
  rw [absorb, hK, Option.getD_none]

theorem absorb_of_shuffle (hne : g.lines ≠ []) (hKL : Shuffle K L) :
    Shuffle (absorb K g) (absorb L g) := by
  cases hK : cancelWith? g K with
  | some R =>
    obtain ⟨S, hS, hSR⟩ := cancelWith?_of_shuffle hne hKL hK
    rw [absorb_of_some hK, absorb_of_some hS]
    exact hSR.symm
  | none =>
    rw [absorb_of_none hK, absorb_of_none (cancelWith?_eq_none_of_shuffle hne hKL hK)]
    exact hKL.cons g

/-- Of two gates that share no line, the one takes away its partner whether or not the other has
taken away its own. -/
theorem cancelWith?_after_apart (hh : h.lines ≠ []) (hgh : g.touches h = false)
    (hR : cancelWith? g K = some R) :
    (cancelWith? h K = none ∧ cancelWith? h R = none) ∨
      ∃ p S T, p.cancels g = true ∧ cancelWith? h K = some S ∧ cancelWith? h R = some T ∧
        Shuffle S (p :: T) := by
  obtain ⟨p, hp, hK⟩ := shuffle_of_cancelWith? hR
  have hph : p.touches h = false := by
    rw [Gate.touches_comm, Gate.touches_congr (Gate.lines_of_cancels hp), Gate.touches_comm]
    exact hgh
  cases hS : cancelWith? h K with
  | none =>
    have hnone := cancelWith?_eq_none_of_shuffle hh hK hS
    rw [cancelWith?_cons_of_apart hph, Option.map_eq_none_iff] at hnone
    exact .inl ⟨rfl, hnone⟩
  | some S =>
    obtain ⟨S', hS', hSS'⟩ := cancelWith?_of_shuffle hh hK hS
    rw [cancelWith?_cons_of_apart hph, Option.map_eq_some_iff] at hS'
    obtain ⟨T, hT, rfl⟩ := hS'
    exact .inr ⟨p, S, T, hp, rfl, hT, hSS'.symm⟩

/-- Gates that share no line may come in either order, once the first has a partner. -/
theorem absorb_comm_of_some (hg : g.lines ≠ []) (hh : h.lines ≠ []) (hgh : g.touches h = false)
    (hR : cancelWith? g K = some R) :
    Shuffle (absorb (absorb K g) h) (absorb (absorb K h) g) := by
  rw [absorb_of_some hR]
  rcases cancelWith?_after_apart hh hgh hR with ⟨hK, hnone⟩ | ⟨p, S, T, hp, hS, hT, hST⟩
  · have hg' : cancelWith? g (h :: K) = some (h :: R) := by
      rw [cancelWith?_cons_of_apart (by rwa [Gate.touches_comm]), hR]
      rfl
    rw [absorb_of_none hnone, absorb_of_none hK, absorb_of_some hg']
  · obtain ⟨T', hT', hTT'⟩ :=
      cancelWith?_of_shuffle hg hST.symm (cancelWith?_cons_of_cancels hg hp T)
    rw [absorb_of_some hT, absorb_of_some hS, absorb_of_some hT']
    exact hTT'.symm

theorem absorb_comm (hg : g.lines ≠ []) (hh : h.lines ≠ []) (hgh : g.touches h = false)
    (K : List Gate) : Shuffle (absorb (absorb K g) h) (absorb (absorb K h) g) := by
  have hhg : h.touches g = false := by rwa [Gate.touches_comm]
  cases hR : cancelWith? g K with
  | some R => exact absorb_comm_of_some hg hh hgh hR
  | none =>
    cases hS : cancelWith? h K with
    | some S => exact (absorb_comm_of_some hh hg hhg hS).symm
    | none =>
      have hg' : cancelWith? g (h :: K) = none := by
        rw [cancelWith?_cons_of_apart hhg, hR]
        rfl
      have hh' : cancelWith? h (g :: K) = none := by
        rw [cancelWith?_cons_of_apart hgh, hS]
        rfl
      rw [absorb_of_none hR, absorb_of_none hh', absorb_of_none hS, absorb_of_none hg']
      exact .single (.swap [] K hhg)

end Absorbing

/-- No gate takes away one of those before it, the latest of which come first. -/
def Clean : List Gate → Prop
  | [] => True
  | g :: K => cancelWith? g K = none ∧ Clean K

section Clean

variable {g h : Gate} {K L : List Gate}

theorem Clean.exchange (hne : ∀ g ∈ K, g.lines ≠ []) (hKL : Exchange K L) (hK : Clean K) :
    Clean L := by
  obtain ⟨front, back, hxy⟩ := hKL
  rename_i x y
  induction front with
  | nil =>
    obtain ⟨hx, hy, hback⟩ := hK
    rw [cancelWith?_cons_of_apart (by rwa [Gate.touches_comm]), Option.map_eq_none_iff] at hx
    refine ⟨?_, hx, hback⟩
    rw [cancelWith?_cons_of_apart hxy, hy]
    rfl
  | cons z front ih =>
    obtain ⟨hz, hrest⟩ := List.forall_mem_cons.1 hne
    have moved : Shuffle (front ++ x :: y :: back) (front ++ y :: x :: back) :=
      .single (.swap front back hxy)
    exact ⟨cancelWith?_eq_none_of_shuffle hz moved hK.1, ih hrest hK.2⟩

theorem Clean.shuffle (hne : ∀ g ∈ K, g.lines ≠ []) (hKL : Shuffle K L) (hK : Clean K) :
    Clean L := by
  induction hKL with
  | refl => exact hK
  | tail before step ih =>
    refine Clean.exchange ?_ step ih
    intro g hg
    exact hne g ((Shuffle.perm before).mem_iff.2 hg)

theorem mem_of_mem_absorb {x : Gate} (hx : x ∈ absorb K g) : x = g ∨ x ∈ K := by
  cases hR : cancelWith? g K with
  | none =>
    rw [absorb_of_none hR] at hx
    exact List.mem_cons.1 hx
  | some R =>
    rw [absorb_of_some hR] at hx
    obtain ⟨before, p, after, rfl, rfl, -, -⟩ := exists_of_cancelWith? hR
    exact .inr (List.mem_append.2 ((List.mem_append.1 hx).imp_right (List.mem_cons_of_mem p)))

theorem Clean.absorb (hne : ∀ g ∈ K, g.lines ≠ []) (hK : Clean K) (g : Gate) :
    Clean (QubitRouting.absorb K g) := by
  cases hR : cancelWith? g K with
  | none =>
    rw [absorb_of_none hR]
    exact ⟨hR, hK⟩
  | some R =>
    obtain ⟨p, -, hp⟩ := shuffle_of_cancelWith? hR
    rw [absorb_of_some hR]
    exact (hK.shuffle hne hp).2

theorem absorb_cancels (hne : ∀ g ∈ K, g.lines ≠ []) (hh : h.lines ≠ []) (hK : Clean K)
    (hc : g.cancels h = true) : Shuffle (absorb (absorb K g) h) K := by
  cases hR : cancelWith? g K with
  | none =>
    rw [absorb_of_none hR, absorb_of_some (cancelWith?_cons_of_cancels hh hc K)]
  | some R =>
    obtain ⟨p, hp, hKR⟩ := shuffle_of_cancelWith? hR
    obtain rfl := Gate.eq_of_cancels hp (Gate.cancels_symm hc)
    have hnone : cancelWith? p R = none := (hK.shuffle hne hKR).1
    rw [absorb_of_some hR, absorb_of_none hnone]
    exact hKR.symm

theorem Clean.of_append {front : List Gate} (h : Clean (front ++ K)) : Clean K := by
  induction front with
  | nil => exact h
  | cons g front ih => exact ih h.2

theorem Clean.reduced (hne : ∀ g ∈ K, g.lines ≠ []) (hK : Clean K) : Reduced K.reverse := by
  intro rest hdel
  generalize hgates : K.reverse = gates at hdel
  obtain ⟨before, between, after, hc, hbetween⟩ := hdel
  rename_i g h
  have hsplit : K = after.reverse ++ h :: (between.reverse ++ g :: before.reverse) := by
    rw [← K.reverse_reverse, hgates]
    simp
  have hh : h.lines ≠ [] := hne h (by simp [hsplit])
  have hnone : cancelWith? h (between.reverse ++ g :: before.reverse) = none := by
    rw [hsplit] at hK
    exact hK.of_append.1
  rw [cancelWith?_append before.reverse
    (fun x hx => (hbetween x (List.mem_reverse.1 hx)).2) hh hc] at hnone
  cases hnone

theorem deletion_of_cancelWith? {R : List Gate} (hR : cancelWith? g K = some R) :
    Deletion (K.reverse ++ [g]) R.reverse := by
  obtain ⟨before, p, after, rfl, rfl, hbefore, hc⟩ := exists_of_cancelWith? hR
  have hbetween : ∀ x ∈ before.reverse, x.touches p = false ∧ x.touches g = false := by
    intro x hx
    have hxg := hbefore x (List.mem_reverse.1 hx)
    rw [Gate.touches_congr (Gate.lines_of_cancels hc)]
    exact ⟨hxg, hxg⟩
  have hdel := Deletion.pair after.reverse before.reverse [] hc hbetween
  simpa using hdel

theorem Reduced.clean (hK : Reduced K.reverse) : Clean K := by
  induction K with
  | nil => trivial
  | cons g K ih =>
    rw [List.reverse_cons] at hK
    constructor
    · rw [Option.eq_none_iff_forall_ne_some]
      intro R hR
      exact hK _ (deletion_of_cancelWith? hR)
    · apply ih
      intro rest hdel
      exact hK _ (hdel.append [g])

end Clean

section Sweeping

variable {K L gs hs : List Gate}

theorem clean_sweep (hne : ∀ g ∈ K, g.lines ≠ []) (hgs : ∀ g ∈ gs, g.lines ≠ []) (hK : Clean K) :
    Clean (gs.foldl absorb K) ∧ ∀ g ∈ gs.foldl absorb K, g.lines ≠ [] := by
  induction gs generalizing K with
  | nil => exact ⟨hK, hne⟩
  | cons g gs ih =>
    obtain ⟨hg, hrest⟩ := List.forall_mem_cons.1 hgs
    refine ih ?_ hrest (hK.absorb hne g)
    intro x hx
    rcases mem_of_mem_absorb hx with rfl | hx
    · exact hg
    · exact hne x hx

theorem sweep_of_shuffle (hgs : ∀ g ∈ gs, g.lines ≠ []) (hKL : Shuffle K L) :
    Shuffle (gs.foldl absorb K) (gs.foldl absorb L) := by
  induction gs generalizing K L with
  | nil => exact hKL
  | cons g gs ih =>
    obtain ⟨hg, hrest⟩ := List.forall_mem_cons.1 hgs
    exact ih hrest (absorb_of_shuffle hg hKL)

/-- The gates of the input may be exchanged. -/
theorem sweep_exchange (hgs : ∀ g ∈ gs, g.lines ≠ []) (h : Exchange gs hs) (K : List Gate) :
    Shuffle (gs.foldl absorb K) (hs.foldl absorb K) := by
  obtain ⟨front, back, hxy⟩ := h
  simp only [List.forall_mem_append, List.forall_mem_cons] at hgs
  obtain ⟨-, hx, hy, hback⟩ := hgs
  rw [List.foldl_append, List.foldl_append, List.foldl_cons, List.foldl_cons, List.foldl_cons,
    List.foldl_cons]
  exact sweep_of_shuffle hback (absorb_comm hx hy hxy _)

theorem sweep_shuffle (hgs : ∀ g ∈ gs, g.lines ≠ []) (h : Shuffle gs hs) (K : List Gate) :
    Shuffle (gs.foldl absorb K) (hs.foldl absorb K) := by
  induction h with
  | refl => exact .refl
  | tail before step ih =>
    apply ih.trans
    apply sweep_exchange _ step
    intro g hg
    exact hgs g ((Shuffle.perm before).mem_iff.2 hg)

/-- A pair of the input may be deleted: its first gate is carried to the second. -/
theorem sweep_deletion (hgs : ∀ g ∈ gs, g.lines ≠ []) (h : Deletion gs hs) :
    Shuffle (gs.foldl absorb []) (hs.foldl absorb []) := by
  obtain ⟨before, between, after, hc, hbetween⟩ := h
  rename_i x y
  have hx : x.lines ≠ [] := hgs x (by simp)
  have hy : y.lines ≠ [] := hgs y (by simp)
  have hmiddle : ∀ g ∈ before ++ between, g.lines ≠ [] := by
    intro g hg
    apply hgs
    rcases List.mem_append.1 hg with hg | hg <;> simp [hg]
  have hafter : ∀ g ∈ after, g.lines ≠ [] := fun g hg => hgs g (by simp [hg])
  have carried : Shuffle (before ++ x :: between ++ y :: after)
      (before ++ between ++ x :: y :: after) := by
    have passed := (Shuffle.pass (y :: after) fun g hg => (hbetween g hg).1).symm
    simpa using Shuffle.prepend before passed
  obtain ⟨hclean, hlines⟩ := clean_sweep (K := []) (by simp) hmiddle trivial
  have hgone := absorb_cancels hlines hy hclean hc
  apply (sweep_shuffle hgs carried []).trans
  rw [List.foldl_append (l := before ++ between), List.foldl_append (l := before ++ between),
    List.foldl_cons, List.foldl_cons]
  exact sweep_of_shuffle hafter hgone

theorem sweep_deletions (hgs : ∀ g ∈ gs, g.lines ≠ []) (h : Relation.ReflTransGen Deletion gs hs) :
    Shuffle (gs.foldl absorb []) (hs.foldl absorb []) := by
  induction h with
  | refl => exact .refl
  | tail before step ih =>
    apply ih.trans
    apply sweep_deletion _ step
    intro g hg
    exact hgs g ((sublist_of_deletions before).subset hg)

/-- What a sweep drops from its input, it drops in pairs. -/
theorem deletions_sweep (K gs : List Gate) :
    Relation.ReflTransGen Deletion (K.reverse ++ gs) (gs.foldl absorb K).reverse := by
  induction gs generalizing K with
  | nil => simpa using Relation.ReflTransGen.refl
  | cons g gs ih =>
    rw [List.foldl_cons]
    cases hR : cancelWith? g K with
    | some R =>
      have hdel := (deletion_of_cancelWith? hR).append gs
      rw [List.append_assoc] at hdel
      rw [absorb_of_some hR]
      exact .head hdel (ih R)
    | none =>
      have htail := ih (g :: K)
      rw [List.reverse_cons, List.append_assoc] at htail
      rw [absorb_of_none hR]
      exact htail

theorem sweep_of_clean (hK : Clean K) : K.reverse.foldl absorb [] = K := by
  induction K with
  | nil => rfl
  | cons g K ih =>
    rw [List.reverse_cons, List.foldl_append, ih hK.2, List.foldl_cons, absorb_of_none hK.1]
    rfl

theorem keptGates_of_reduced (h : Reduced gs) : keptGates gs = gs := by
  rw [← gs.reverse_reverse] at h
  have hsweep := sweep_of_clean h.clean
  rw [gs.reverse_reverse] at hsweep
  rw [keptGates, hsweep, List.reverse_reverse]

theorem deletions_keptGates (gs : List Gate) :
    Relation.ReflTransGen Deletion gs (keptGates gs) :=
  deletions_sweep [] gs

theorem reduced_keptGates (hgs : ∀ g ∈ gs, g.lines ≠ []) : Reduced (keptGates gs) := by
  obtain ⟨hclean, hlines⟩ := clean_sweep (K := []) (by simp) hgs trivial
  exact hclean.reduced hlines

theorem shuffle_keptGates (hgs : ∀ g ∈ gs, g.lines ≠ []) (h : Shuffle gs hs) :
    Shuffle (keptGates gs) (keptGates hs) :=
  (sweep_shuffle hgs h []).reverse

theorem shuffle_of_deletions (hgs : ∀ g ∈ gs, g.lines ≠ [])
    (h : Relation.ReflTransGen Deletion gs hs) (hr : Reduced hs) : Shuffle hs (keptGates gs) := by
  have hsweep := (sweep_deletions hgs h).reverse.symm
  rwa [← keptGates, ← keptGates, keptGates_of_reduced hr] at hsweep

end Sweeping

namespace Circuit

variable {c : Circuit}

theorem Valid.sublist (hv : c.Valid) {gates : List Gate} (h : gates.Sublist c.gates) :
    ({ c with gates := gates } : Circuit).Valid :=
  fun g hg => hv g (h.subset hg)

theorem removeDuplicates_eq (hv : c.Valid) :
    c.removeDuplicates = .ok { c with gates := keptGates c.gates } := by
  rw [removeDuplicates, Sweep.survivors_sweep hv]
  exact validated_eq_ok_iff.2 ⟨hv.sublist (sublist_of_deletions (deletions_keptGates _)), rfl⟩

/-- One sweep deletes pairs until none is left, and what is left does not depend on the order of the
deletions: any other order that comes to an end leaves the same gates, up to exchanges of neighbours
without a common line. Such exchanges in the input do not change the number of gates that are left.
-/
theorem removeDuplicates_normal_form (hv : c.Valid) :
    ∃ out, c.removeDuplicates = .ok out ∧
      Relation.ReflTransGen Deletion c.gates out.gates ∧ Reduced out.gates ∧
      out.removeDuplicates = .ok out ∧
      (∀ result, Relation.ReflTransGen Deletion c.gates result → Reduced result →
        result.length = out.gates.length ∧ Shuffle result out.gates) ∧
      ∀ gates, Shuffle c.gates gates →
        ∃ other, ({ c with gates := gates } : Circuit).removeDuplicates = .ok other ∧
          other.gates.length = out.gates.length ∧ Shuffle other.gates out.gates := by
  have hlines : ∀ g ∈ c.gates, g.lines ≠ [] := fun g hg => (hv g hg).lines_ne
  have hreduced := reduced_keptGates hlines
  refine ⟨{ c with gates := keptGates c.gates }, removeDuplicates_eq hv,
    deletions_keptGates c.gates, hreduced, ?_, ?_, ?_⟩
  · have hkept : ({ c with gates := keptGates c.gates } : Circuit).Valid :=
      hv.sublist (sublist_of_deletions (deletions_keptGates c.gates))
    rw [removeDuplicates_eq hkept, keptGates_of_reduced hreduced]
  · intro result hdel hresult
    have hsame := shuffle_of_deletions hlines hdel hresult
    exact ⟨hsame.perm.length_eq, hsame⟩
  · intro gates hgates
    have hsame := (shuffle_keptGates hlines hgates).symm
    have hother : ({ c with gates := gates } : Circuit).Valid :=
      fun g hg => hv g (hgates.perm.mem_iff.2 hg)
    exact ⟨_, removeDuplicates_eq hother, hsame.perm.length_eq, hsame⟩

def nested : Circuit where
  name := "nested"
  lines := 3
  gates := [.cnot 0 1, .controlledV 0 1 false, .hadamard 2, .controlledV 0 1 true, .cnot 0 1]

/-- Whatever the order of the deletions, only the gate on the other line is left. -/
theorem deletions_of_nested : nested.Valid ∧
    nested.removeDuplicates = .ok { nested with gates := [.hadamard 2] } ∧
    ∀ result, Relation.ReflTransGen Deletion nested.gates result → Reduced result →
      result.length = 1 ∧ Shuffle result [.hadamard 2] := by
  have hv : nested.Valid := by decide
  obtain ⟨out, hout, -, -, -, huniq, -⟩ := removeDuplicates_normal_form hv
  have heq : nested.removeDuplicates = .ok { nested with gates := [.hadamard 2] } := by
    decide +kernel
  rw [heq] at hout
  cases hout
  exact ⟨hv, heq, huniq⟩

end Circuit

end QubitRouting
