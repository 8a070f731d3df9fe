import QubitRouting.Circuit.Basic

/-!
Registers of amplitudes and the action of a gate on them. The amplitudes may come from any type with
an addition and a multiplication. Bit `q` of an index is the value of line `q`.

`Register.act?` overwrites the two amplitudes of a pair together, so that each is computed from the
values before the gate.
-/

namespace QubitRouting

structure Matrix2 (α : Type) where
  a00 : α
  a01 : α
  a10 : α
  a11 : α
  deriving DecidableEq, Repr

abbrev Register (α : Type) := Array α

def indexBits : Nat := 64

/-- The index whose only bit is that of line `q`; also the number of basis states of `q` lines. -/
def lineIndex (q : Qubit) : Nat := Nat.pow 2 q

/-- Whether all controls fire on an index; none when a control that has to be looked at lies outside
the bits of an index. -/
def fires? (index : Nat) : List Control → Option Bool
  | [] => some true
  | c :: rest =>
    if indexBits ≤ c.line then none
    else if index.testBit c.line = c.positive then fires? index rest
    else some false

namespace Register

variable {α : Type} [Add α] [Mul α]

/-- The action on the pair of amplitudes whose lower index is `i`; an index with the target bit set
is no lower index. None when a line lies outside the register. -/
@[specialize] def actAt? (m : Matrix2 α) (controls : List Control) (target : Qubit)
    (r : Register α) (i : Nat) : Option (Register α) :=
  if i.testBit target then some r
  else
    match fires? i controls with
    | none => none
    | some false => some r
    | some true =>
      let j := i + lineIndex target
      if h : i < r.size ∧ j < r.size then
        let a := r[i]
        let b := r[j]
        some ((r.setIfInBounds i (m.a00 * a + m.a01 * b)).setIfInBounds j (m.a10 * a + m.a11 * b))
      else none

@[specialize] def actOn? (m : Matrix2 α) (controls : List Control) (r : Register α)
    (target : Qubit) : Option (Register α) :=
  if indexBits ≤ target then none
  else r.size.fold (fun i _ state => state.bind (actAt? m controls target · i)) (some r)

@[specialize] def act? (matrix : GateKind → Matrix2 α) (r : Register α) (g : Gate) :
    Option (Register α) :=
  g.targets.foldlM (actOn? (matrix g.kind) g.controls) r

@[specialize] def run? (matrix : GateKind → Matrix2 α) (r : Register α) (gates : List Gate) :
    Option (Register α) :=
  gates.foldlM (act? matrix) r

@[specialize] def trace? (matrix : GateKind → Matrix2 α) (r : Register α) :
    List Gate → Option (List (Register α))
  | [] => some [r]
  | g :: rest => do
    let next ← act? matrix r g
    return r :: (← trace? matrix next rest)

end Register

end QubitRouting
