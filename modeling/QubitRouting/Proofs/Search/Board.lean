import QubitRouting.Proofs.Search.Paths

/-!
The search in place. One board holds which qubits are visited and the moves so far; it is changed on
the way down and changed back on the way up. Whatever a visitor turns away and wherever the search
stops, the board is left as it was found, so the search tells a visitor the same as one that keeps
its states apart.
-/

namespace QubitRouting

structure Board where
  visited : Array Bool
  path : Path
  deriving DecidableEq, Repr

namespace Board

variable {b : Board} {q : Qubit}

def push (b : Board) (m : Move) : Board := { b with path := b.path ++ [m] }

def pop (b : Board) : Board := { b with path := b.path.dropLast }

def mark (b : Board) (q : Qubit) (value : Bool) : Board :=
  { b with visited := b.visited.setIfInBounds q value }

def unvisited (b : Board) : List Qubit :=
  (List.range b.visited.size).filter fun q => b.visited[q]? = some false

def start (size : Nat) (control target : Qubit) : Board :=
  Board.mark (Board.mark ⟨Array.replicate size false, []⟩ control true) target true

def state (b : Board) (control target : Qubit) : SearchState :=
  ⟨control, target, b.unvisited, b.path⟩

@[simp] theorem pop_push (b : Board) (m : Move) : (b.push m).pop = b := by
  simp [push, pop]

theorem mem_unvisited : q ∈ b.unvisited ↔ b.visited[q]? = some false := by
  rw [unvisited, List.mem_filter, List.mem_range, decide_eq_true_eq]
  refine and_iff_right_of_imp fun h => ?_
  exact (Array.getElem?_eq_some_iff.1 h).1

theorem nodup_unvisited (b : Board) : b.unvisited.Nodup := List.nodup_range.filter _

theorem mark_mark (h : b.visited[q]? = some false) : (b.mark q true).mark q false = b := by
  obtain ⟨hq, hfalse⟩ := Array.getElem?_eq_some_iff.1 h
  obtain ⟨visited, path⟩ := b
  simp only [mark, Board.mk.injEq, and_true]
  refine Array.ext (by simp) fun p hp hp' => ?_
  rw [Array.getElem_setIfInBounds (by simpa using hp), Array.getElem_setIfInBounds hp']
  split_ifs with heq
  · simpa [← heq] using hfalse.symm
  · rfl

theorem getElem?_mark_of_ne {p : Qubit} (h : q ≠ p) (value : Bool) :
    (b.mark q value).visited[p]? = b.visited[p]? :=
  Array.getElem?_setIfInBounds_ne h

theorem getElem?_mark_self (h : q < b.visited.size) (value : Bool) :
    (b.mark q value).visited[q]? = some value :=
  Array.getElem?_setIfInBounds_self_of_lt h

@[simp] theorem size_mark (b : Board) (q : Qubit) (value : Bool) :
    (b.mark q value).visited.size = b.visited.size := Array.size_setIfInBounds

theorem unvisited_mark (h : b.visited[q]? = some false) :
    (b.mark q true).unvisited = b.unvisited.erase q := by
  have hlt := (Array.getElem?_eq_some_iff.1 h).1
  rw [(nodup_unvisited b).erase_eq_filter, unvisited, unvisited, List.filter_filter, size_mark]
  refine List.filter_congr fun p _ => ?_
  by_cases hp : q = p
  · subst hp
    simp [getElem?_mark_self hlt]
  · simp [getElem?_mark_of_ne hp, Ne.symm hp]

theorem length_unvisited_mark_lt (h : b.visited[q]? = some false) (m : Move) :
    ((b.mark q true).push m).unvisited.length < b.unvisited.length := by
  have hmem := mem_unvisited.2 h
  have hlen := List.length_erase_of_mem hmem
  have hpos := List.length_pos_of_mem hmem
  change (b.mark q true).unvisited.length < _
  rw [unvisited_mark h]
  omega

theorem state_push_mark (h : b.visited[q]? = some false) (m : Move) (c t : Qubit) :
    ((b.mark q true).push m).state c t = ⟨c, t, b.unvisited.erase q, b.path ++ [m]⟩ := by
  rw [← unvisited_mark h]
  rfl

end Board

namespace Graph

variable {g : Graph} {limit : Option Nat} {σ : Type}

/-- Shows a visitor the state of a board and the states below it. The answer is the board as it was,
with what the visitor has gathered. -/
def walk (g : Graph) (limit : Option Nat) (v : Visitor σ) (control target : Qubit) (b : Board)
    (gathered : σ) : { out : Board × σ // out.1 = b } :=
  match v.enter b.path gathered with
  | (false, gathered) => ⟨(b, gathered), rfl⟩
  | (true, gathered) =>
    match g.terminal? control target with
    | some last => ⟨((b.push last).pop, v.complete (b.push last).path gathered), b.pop_push last⟩
    | none =>
      if exhausted limit b.path then ⟨(b, gathered), rfl⟩
      else
        (List.range b.visited.size).foldl (fun out x =>
          if h : out.1.1.visited[x]? = some false then
            (g.hops control target x).foldl (fun out' hop =>
              have hx : out'.1.1.visited[x]? = some false := by rw [out'.2, ← out.2]; exact h
              let below :=
                walk g limit v hop.2.1 hop.2.2 ((out'.1.1.mark x true).push hop.1) out'.1.2
              ⟨(below.1.1.pop.mark x false, below.1.2), by
                rw [below.2, Board.pop_push, Board.mark_mark hx, out'.2]⟩) out
          else out) ⟨(b, gathered), rfl⟩
termination_by b.unvisited.length
decreasing_by
  have hlt := Board.length_unvisited_mark_lt hx hop.1
  rwa [out'.2] at hlt ⊢

theorem visitFrom_state_of_open (v : Visitor σ) {b : Board} {c t : Qubit} {x : σ}
    (h : (v.enter b.path x).1 = true) (ht : g.terminal? c t = none)
    (hl : exhausted limit b.path = false) :
    g.visitFrom limit v (b.state c t) x =
      (List.range b.visited.size).foldl (fun y q =>
        if b.visited[q]? = some false then
          (g.hops c t q).foldl (fun y hop => g.visitFrom limit v
            ⟨hop.2.1, hop.2.2, b.unvisited.erase q, b.path ++ [hop.1]⟩ y) y
        else y) (v.enter b.path x).2 := by
  rw [visitFrom_of_open v h ht hl, SearchState.successors, List.foldl_flatMap]
  simp only [Board.state, List.foldl_map]
  rw [Board.unvisited, List.foldl_filter]
  simp only [decide_eq_true_eq]

/-- The search in place tells a visitor what the search tells it that keeps its states apart. -/
theorem walk_eq (v : Visitor σ) (c t : Qubit) (b : Board) (x : σ) :
    (g.walk limit v c t b x).1.2 = g.visitFrom limit v (b.state c t) x := by
  -- The induction is on the number of qubits that are not visited, which is less below a move.
  induction hn : b.unvisited.length using Nat.strongRecOn generalizing c t b x with
  | _ n ih =>
    subst hn
    rw [walk]
    split
    · next y henter =>
      have hskip : (v.enter (b.state c t).relays x).1 = false := congrArg Prod.fst henter
      rw [visitFrom_of_skipped v hskip]
      exact (congrArg Prod.snd henter).symm
    · next y henter =>
      have hin : (v.enter (b.state c t).relays x).1 = true := congrArg Prod.fst henter
      have hy : (v.enter (b.state c t).relays x).2 = y := congrArg Prod.snd henter
      split
      · next last hlast =>
        rw [visitFrom_of_terminal v hin hlast, hy]
        rfl
      · next hlast =>
        split_ifs with hl
        · rw [visitFrom_of_exhausted v hin hlast hl, hy]
        · rw [visitFrom_state_of_open v hin hlast (by simpa using hl)]
          rw [← hy]
          refine (List.foldl_hom (fun out : { out : Board × σ // out.1 = b } => out.1.2) ?_).symm
          rintro ⟨⟨board, y⟩, hboard⟩ q
          obtain rfl : board = b := hboard
          split_ifs with hq
          · refine List.foldl_hom (fun out : { out : Board × σ // out.1 = board } => out.1.2) ?_
            rintro ⟨⟨board', y'⟩, hboard'⟩ ⟨m, c', t'⟩
            have hstate : ((board'.mark q true).push m).state c' t' =
                ⟨c', t', board.unvisited.erase q, board.path ++ [m]⟩ := by
              obtain rfl : board' = board := hboard'
              exact Board.state_push_mark hq m c' t'
            have hlt : ((board'.mark q true).push m).unvisited.length < board.unvisited.length := by
              obtain rfl : board' = board := hboard'
              exact Board.length_unvisited_mark_lt hq m
            have hbelow := ih _ hlt c' t' _ y' rfl
            rw [hstate] at hbelow
            exact hbelow.symm
          · rfl

def visitInPlace (g : Graph) (limit : Option Nat) (v : Visitor σ) (control target : Qubit)
    (gathered : σ) : σ :=
  if control ≠ target ∧ control < g.size ∧ target < g.size then
    (g.walk limit v control target (.start g.size control target) gathered).1.2
  else gathered

theorem state_start (g : Graph) {c t : Qubit} (hct : c ≠ t) (hc : c < g.size) (ht : t < g.size) :
    (Board.start g.size c t).state c t = g.searchStart c t := by
  let blank : Board := ⟨Array.replicate g.size false, []⟩
  have hblank : ∀ q < g.size, blank.visited[q]? = some false := by
    intro q hq
    simp [blank, hq]
  have ht' : (blank.mark c true).visited[t]? = some false := by
    rw [Board.getElem?_mark_of_ne hct]
    exact hblank t ht
  have hall : blank.unvisited = g.qubits := by
    rw [Board.unvisited, qubits, List.filter_eq_self.2]
    · simp [blank]
    · intro q hq
      simpa using hblank q (by simpa [blank] using hq)
  have hrest : (g.qubits.erase c).erase t = g.qubits.filter fun q => q ≠ c ∧ q ≠ t := by
    have hnodup : g.qubits.Nodup := List.nodup_range
    rw [(hnodup.erase c).erase_eq_filter, hnodup.erase_eq_filter, List.filter_filter]
    refine List.filter_congr fun q _ => ?_
    rw [Bool.eq_iff_iff]
    simp [and_comm]
  rw [Board.state, searchStart, Board.start, Board.unvisited_mark ht',
    Board.unvisited_mark (hblank c hc), hall, hrest]
  rfl

theorem visitInPlace_eq (v : Visitor σ) (c t : Qubit) (x : σ) :
    g.visitInPlace limit v c t x = g.visit limit v c t x := by
  unfold visitInPlace visit
  split_ifs with h
  · rw [walk_eq, state_start g h.1 h.2.1 h.2.2]
  · rfl

end Graph

end QubitRouting
