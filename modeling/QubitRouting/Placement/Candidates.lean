import QubitRouting.Placement.Layout

/-!
All injective layouts of a number of lines: the sets of images in lexicographic order, and for each
set its orderings in lexicographic order.
-/

namespace QubitRouting

/-- The sublists with `k` elements, in lexicographic order of positions. -/
def choices : (k : Nat) → List α → List (List α)
  | 0, _ => [[]]
  | _ + 1, [] => []
  | k + 1, x :: xs => (choices k xs).map (x :: ·) ++ choices (k + 1) xs

def picks : List α → List (α × List α)
  | [] => []
  | x :: xs => (x, xs) :: (picks xs).map fun (y, rest) => (y, x :: rest)

/-- The sequences of `k` elements at different positions, in lexicographic order of positions. -/
def arrangements : (k : Nat) → List α → List (List α)
  | 0, _ => [[]]
  | k + 1, xs => (picks xs).flatMap fun (x, rest) => (arrangements k rest).map (x :: ·)

def injectiveLayouts (lines size : Nat) : List Layout :=
  if size < lines then []
  else (choices lines (List.range size)).flatMap fun images =>
    (arrangements lines images).map Layout.mk

def exhaustiveCandidates (h : Histogram) (r : Router) (lines slack : Nat) : List (Layout × Nat) :=
  let interactions := h.interactions
  let scored := (injectiveLayouts lines r.size).map fun l => (l, l.estimateOf interactions r)
  match (scored.map Prod.snd).min? with
  | none => []
  | some least => scored.filter fun (_, e) => e ≤ min maxEstimate (least + slack)

def exhaustiveCandidates? (h : Histogram) (r : Router) (lines slack : Nat) :
    Option (List (Layout × Nat)) :=
  if fitsBlock longBytes lines then some (exhaustiveCandidates h r lines slack) else none

end QubitRouting
