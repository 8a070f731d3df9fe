import QubitRouting.Proofs.Search.Choice

/-!
The widths of costs. Relays that are undone cost twelve gates each, which no device of an ordinary
size brings near the bound of words. Merged relays cost twice as much with every relay of the run:
twenty-nine of them still fit and thirty do not, and nothing else that a search computes leaves its
width.
-/

namespace QubitRouting

/-- The matrix of a graph with more qubits has over `2 ^ 52` entries. -/
def deviceBound : Nat := 67108864

namespace Path

def windowAfter (window : Option Nat) : Path → Option Nat
  | [] => window
  | .cnot3 .. :: rest =>
    match window with
    | none => windowAfter (some (Move.cnot3Cost + 1)) rest
    | some w => windowAfter (some (2 * w + 2)) rest
  | _ :: rest => windowAfter none rest

theorem costFrom_append (p q : Path) (window : Option Nat) :
    costFrom window (p ++ q) = costFrom window p + costFrom (windowAfter window p) q := by
  induction p generalizing window with
  | nil => simp [costFrom, windowAfter]
  | cons m p ih =>
    cases m with
    | cnot3 a b c => cases window <;> simp [costFrom, windowAfter, ih, Nat.add_assoc]
    | _ => simp [costFrom, windowAfter, ih, Nat.add_assoc]

/-- A window holds the gates that its run has added, and the CNOT that was asked for. -/
theorem windowAfter_le (p : Path) (window : Option Nat) :
    ∀ w ∈ windowAfter window p, w ≤ costFrom window p + max 1 (window.getD 0) := by
  induction p generalizing window with
  | nil =>
    rintro w rfl
    simp [costFrom]
  | cons m p ih =>
    cases m with
    | cnot3 a b c =>
      cases window with
      | none =>
        intro w hw
        have := ih (some (Move.cnot3Cost + 1)) w hw
        simp only [costFrom, Move.cnot3Cost, Option.getD_some, Option.getD_none] at this ⊢
        omega
      | some v =>
        intro w hw
        have := ih (some (2 * v + 2)) w hw
        simp only [costFrom, Option.getD_some] at this ⊢
        omega
    | _ =>
      intro w hw
      have := ih none w hw
      simp only [costFrom, Option.getD_none] at this ⊢
      omega

theorem isSome_roundTrip?_iff {p : Path} : p.roundTrip?.isSome ↔ 2 * p.cost < wordBound := by
  rw [roundTrip?]
  split_ifs with h <;> simp [h]

/-- Where the doubled cost fits, so do the totals and the windows on the way there. -/
theorem fits_of_prefix {p before : Path} (h : p.roundTrip?.isSome) (hp : before <+: p) :
    before.cost < wordBound ∧ ∀ w ∈ windowAfter none before, w < wordBound := by
  obtain ⟨rest, rfl⟩ := hp
  have hcost := isSome_roundTrip?_iff.1 h
  rw [cost, costFrom_append, wordBound] at hcost
  rw [cost, wordBound]
  refine ⟨by omega, fun w hw => ?_⟩
  have hwindow : w ≤ costFrom none before + 1 := windowAfter_le before none w hw
  omega

end Path

namespace Graph

variable {g : Graph} {limit : Option Nat} {c₀ t₀ c t : Qubit} {relays : List Move}

theorem Leads.found_fits {last : Move} (h : g.Leads c₀ t₀ relays c t)
    (hlast : g.terminal? c t = some last) (hlen : relays.length ≤ deviceBound) :
    2 * Path.cost (relays ++ [last]) < wordBound := by
  obtain ⟨hcost, hflip⟩ := cost_terminal hlast
  rw [deviceBound] at hlen
  rw [Path.cost_relays_append h.isRelays, hcost, wordBound]
  omega

/-- A merged path fits exactly when fewer than thirty relays merge. -/
theorem Leads.merged_fits_iff {last : Move} {merged : Path} (h : g.Leads c₀ t₀ relays c t)
    (h₀ : c₀ ≠ t₀) (hlast : g.terminal? c t = some last)
    (hm : Path.mergeRelays? (relays ++ [last]) = some merged)
    (hlen : relays.length ≤ deviceBound) : 2 * merged.cost < wordBound ↔ cabRun relays < 30 := by
  obtain ⟨a, before, run, rfl, leads, nested, hne, -, hrun, hall⟩ := h.of_mergeRelays h₀ hlast hm
  have hcost := nested.cost hne
  rw [deviceBound] at hlen
  rw [Path.cost_relays_append leads.isRelays, ← hrun, wordBound]
  rcases Nat.lt_or_ge run.length 30 with hshort | hlong
  · have hpow : 2 ^ run.length ≤ 2 ^ 29 := Nat.pow_le_pow_right (by decide) (by omega)
    refine iff_of_true ?_ hshort
    omega
  · have hpow : 2 ^ 30 ≤ 2 ^ run.length := Nat.pow_le_pow_right (by decide) hlong
    refine iff_of_false ?_ (Nat.not_lt.2 hlong)
    omega

section Width

theorem offer_cost_lt {p : Path} {x : CheapestSoFar}
    (hx : ∀ choice ∈ x.best, choice.1 < wordBound) :
    ∀ choice ∈ (x.offer p).best, choice.1 < wordBound := by
  have hcost : ∀ cost ∈ p.roundTrip?, cost < wordBound := by
    intro cost hcost
    unfold Path.roundTrip? at hcost
    split_ifs at hcost with hwidth
    · obtain rfl := Option.some.inj hcost
      exact Nat.lt_of_le_of_lt (Nat.sub_le _ _) hwidth
    · cases hcost
  obtain ⟨best, overflow⟩ := x
  unfold CheapestSoFar.offer
  grind

theorem offer_fits {p : Path} {x : CheapestSoFar} (hx : x.overflow = false)
    (hp : 2 * p.cost < wordBound) : (x.offer p).overflow = false := by
  obtain ⟨best, overflow⟩ := x
  obtain rfl : overflow = false := hx
  have hcost : p.roundTrip? = some p.roundTrip := by rw [Path.roundTrip?, if_pos hp]
  rcases best with _ | ⟨least, q⟩ <;> simp [CheapestSoFar.offer, hcost]

/-- What every offer preserves holds at the end of the search. -/
theorem visitor_preserves {P : CheapestSoFar → Prop} {ceiling : Option Nat} (s : SearchState)
    (hoffer : ∀ p ∈ g.pathsFrom limit s, ∀ q ∈ offered p, ∀ x : CheapestSoFar, P x → P (x.offer q))
    {x : CheapestSoFar} (h : P x) :
    P (g.visitFrom limit (CheapestSoFar.visitor ceiling) s x) := by
  refine visitFrom_preserves _ (fun _ _ hx => hx) s ?_ x h
  intro p hp x hx
  rw [CheapestSoFar.visitor_complete]
  exact List.foldlRecOn _ _ hx fun x hx q hq => hoffer p hp q hq x hx

theorem cost_lt_of_cheapest {cost : Nat} {p : Path} (h : g.cheapest limit c t = .ok (cost, p)) :
    cost < wordBound := by
  have hbest : ∀ choice ∈ (g.visit limit (CheapestSoFar.visitor (g.walkingCost? limit c t)) c t
      ⟨none, false⟩).best, choice.1 < wordBound := by
    unfold visit
    split_ifs
    · refine visitor_preserves (P := fun x => ∀ choice ∈ x.best, choice.1 < wordBound) _ ?_ nofun
      exact fun _ _ _ _ x hx => offer_cost_lt hx
    · exact nofun
  unfold cheapest at h
  simp only at h
  split_ifs at h
  split at h
  · cases h
  · next choice hchoice =>
    obtain rfl := Except.ok.inj h
    exact hbest _ hchoice

theorem cheapest_overflow_iff : g.cheapest limit c t = .error (.defect .overflow) ↔
    (g.visit limit (CheapestSoFar.visitor (g.walkingCost? limit c t)) c t
      ⟨none, false⟩).overflow = true := by
  unfold cheapest
  simp only
  split_ifs with hoverflow
  · exact iff_of_true rfl hoverflow
  · refine iff_of_false ?_ hoverflow
    split <;> exact nofun

end Width

section Device

variable (h : c ≠ t) (hc : c < g.size) (ht : t < g.size)
include h hc ht

theorem exists_reaches_of_mem {p : Path} (hp : p ∈ g.enumerate limit c t) :
    ∃ u last, g.Reaches limit (g.searchStart c t) u ∧ g.SearchInvariant c t u ∧
      g.terminal? u.control u.target = some last ∧ p = u.relays ++ [last] := by
  rw [enumerate_eq g limit h hc ht] at hp
  obtain ⟨u, last, hreach, hlast, rfl⟩ := mem_pathsFrom hp
  exact ⟨u, last, hreach, reaches_invariant (start_invariant h hc ht) hreach, hlast, rfl⟩

theorem distance_lt {d : Nat} (hd : g.distance? c t = some d) : d < g.size := by
  obtain ⟨-, -, hdist⟩ := distance?_eq_some_iff.1 hd
  have hopen : ∀ k ∈ (none : Option Nat), d - 1 ≤ k := nofun
  obtain ⟨u, last, hreach, hlast, -⟩ := exists_path_of_edist h hc hdist hopen
  have invariant := reaches_invariant (start_invariant h hc ht) hreach
  have hcount := invariant.count
  have hle := invariant.leads.edist_le_succ hlast
  rw [hdist] at hle
  have : d ≤ u.relays.length + 1 := by exact_mod_cast hle
  omega

/-- The doubled cost of a candidate is too large only for a merged run of thirty relays. -/
theorem exists_run_of_overflow (hsize : g.size ≤ deviceBound)
    (ho : g.cheapest limit c t = .error (.defect .overflow)) :
    ∃ relays last, relays ++ [last] ∈ g.enumerate limit c t ∧ 30 ≤ cabRun relays := by
  by_contra hno
  have hfits : ∀ p ∈ g.enumerate limit c t, ∀ q ∈ offered p, 2 * q.cost < wordBound := by
    intro p hp q hq
    obtain ⟨u, last, -, hu, hlast, rfl⟩ := exists_reaches_of_mem h hc ht hp
    have hcount := hu.count
    have hlen : u.relays.length ≤ deviceBound := by omega
    rcases mem_offered.1 hq with rfl | hm
    · exact hu.leads.found_fits hlast hlen
    · rw [hu.leads.merged_fits_iff h hlast hm hlen, ← Nat.not_le]
      exact fun hrun => hno ⟨_, _, hp, hrun⟩
  rw [cheapest_overflow_iff, visit, if_pos ⟨h, hc, ht⟩] at ho
  rw [enumerate_eq g limit h hc ht] at hfits
  refine Bool.false_ne_true (Eq.trans (Eq.symm ?_) ho)
  refine visitor_preserves (P := fun x => x.overflow = false) _ ?_ rfl
  exact fun p hp q hq x hx => offer_fits hx (hfits p hp q hq)

theorem cheapest_fits (hsize : g.size ≤ deviceBound) (hfew : g.size ≤ 31 ∨ ∃ k ∈ limit, k ≤ 29) :
    g.cheapest limit c t ≠ .error (.defect .overflow) := by
  intro ho
  obtain ⟨relays, last, hmem, hrun⟩ := exists_run_of_overflow h hc ht hsize ho
  obtain ⟨u, _, hreach, hu, -, heq⟩ := exists_reaches_of_mem h hc ht hmem
  obtain ⟨rfl, -⟩ := List.append_inj' heq rfl
  have hcount := hu.count
  have hle := cabRun_le u.relays
  rcases hfew with hsmall | ⟨k, hk, hshort⟩
  · omega
  · have := hreach.length_le (fun _ _ => Nat.zero_le _) k hk
    omega

end Device

/-- All numbers of the search for one pair are words, except the doubled costs of merged runs of
thirty relays and more. -/
structure KeepsWidth (g : Graph) (limit : Option Nat) (c t : Qubit) : Prop where
  walk : ∀ d, g.distance? c t = some d →
    (d - 1) * (2 * Move.relayCost) + Move.flipCost < wordBound
  bound : ∀ s, g.Reaches limit (g.searchStart c t) s → lowerBound s.relays < wordBound
  found : ∀ p ∈ g.enumerate limit c t, p.roundTrip?.isSome
  merged : ∀ relays last q, relays ++ [last] ∈ g.enumerate limit c t →
    Path.mergeRelays? (relays ++ [last]) = some q → (q.roundTrip?.isSome ↔ cabRun relays < 30)
  steps : ∀ p ∈ g.candidates limit c t, p.roundTrip?.isSome → ∀ before : Path, before <+: p →
    before.cost < wordBound ∧ ∀ w ∈ Path.windowAfter none before, w < wordBound

theorem keepsWidth (limit : Option Nat) (h : c ≠ t) (hc : c < g.size) (ht : t < g.size)
    (hsize : g.size ≤ deviceBound) : g.KeepsWidth limit c t where
  walk := by
    intro d hd
    have := distance_lt h hc ht hd
    rw [deviceBound] at hsize
    rw [Move.relayCost, Move.flipCost, wordBound]
    omega
  bound := by
    intro s hs
    have hcount := (reaches_invariant (start_invariant h hc ht) hs).count
    have hle := lowerBound_le_relays s.relays
    rw [deviceBound] at hsize
    rw [wordBound]
    omega
  found := by
    intro p hp
    obtain ⟨u, last, -, hu, hlast, rfl⟩ := exists_reaches_of_mem h hc ht hp
    have hcount := hu.count
    exact Path.isSome_roundTrip?_iff.2 (hu.leads.found_fits hlast (by omega))
  merged := by
    intro relays last q hp hm
    obtain ⟨u, last', -, hu, hlast, heq⟩ := exists_reaches_of_mem h hc ht hp
    obtain ⟨rfl, hsame⟩ := List.append_inj' heq rfl
    obtain rfl := List.singleton_inj.1 hsame
    have hcount := hu.count
    rw [Path.isSome_roundTrip?_iff]
    exact hu.leads.merged_fits_iff h hlast hm (by omega)
  steps := fun _ _ hfits _ => Path.fits_of_prefix hfits

end Graph

end QubitRouting
