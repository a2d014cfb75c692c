import TypeFlow.TypeSet
/-!
# Union and intersection of type sets

`union` keeps leaves apart as atoms: a bare container and its instances stand side by side.
`inter` refines: a bare container meets an instance in the instance, and two instances meet in
the instance of the meet of their arguments (`leafMeet`).
-/

namespace TypeFlow

namespace TypeSet

/-- Everything absorbs and nothing is neutral; otherwise the leaves of both. A union that holds
the other operand already is returned as it is. -/
def union (a b : TypeSet) : TypeSet :=
  if a = .univ ∨ b = .univ then .univ
  else if a = .empty then b
  else if b = .empty then a
  else if a = b then a
  else
    match a, b with
    | .anyOf xs, .anyOf ys => ofLeaves (xs ++ ys)
    | .anyOf xs, leaf | leaf, .anyOf xs =>
      if leaf ∈ xs then .anyOf xs else ofLeaves (xs ++ [leaf])
    | x, y => ofLeaves [x, y]

/-- The more special of two comparable leaves, and nothing for incomparable ones. -/
def leafMeet : TypeSet → TypeSet → Option TypeSet
  | .arged a x, .arged b y => if a = b then (leafMeet x y).map (.arged a) else none
  | .base a, .arged b y => if a = b then some (.arged b y) else none
  | .arged a x, .base b => if a = b then some (.arged a x) else none
  | x, y => if x = y then some x else none

/-- Every meet of a leaf of the one list with a leaf of the other. -/
def meets (xs ys : List TypeSet) : List TypeSet :=
  xs.flatMap fun x => ys.filterMap (leafMeet x)

/-- Nothing absorbs and everything is neutral; otherwise the meets of the leaves. -/
def inter (a b : TypeSet) : TypeSet :=
  if a = .empty ∨ b = .empty then .empty
  else if a = .univ then b
  else if b = .univ then a
  else if a = b then a
  else ofLeaves (meets a.leaves b.leaves)

/-! ## Tests for change -/

/-- Whether a union with `b` would differ from `a`. -/
def unionChanges (a b : TypeSet) : Bool :=
  if a = .univ ∨ b = .empty then false
  else if b = .univ ∨ a = .empty then true
  else b.leaves.any (· ∉ a.leaves)

/-- Whether an intersection with `b` would differ from `a`. -/
def interChanges (a b : TypeSet) : Bool :=
  if a = .empty ∨ b = .univ then false
  else if b = .empty ∨ a = .univ then true
  else a.inter b ≠ a

end TypeSet

end TypeFlow
