import TypeFlow.PlainSet
import TypeFlow.TypeSet.Algebra
/-!
# Plain sets as type sets

A plain set is read as a type set by carrying out its unions and intersections.
-/

namespace TypeFlow

namespace TypeSet

mutual

/-- The type set that a plain set writes. -/
def ofPlain : PlainSet → TypeSet
  | .univ => .univ
  | .empty => .empty
  | .base b => .base b
  | .anyOf ops => unionPlain .empty ops
  | .allOf ops => interPlain .univ ops

/-- The union of `sofar` with plain sets, from the left. -/
def unionPlain (sofar : TypeSet) : List PlainSet → TypeSet
  | [] => sofar
  | x :: xs => unionPlain (sofar.union (ofPlain x)) xs

/-- The intersection of `sofar` with plain sets, from the left. -/
def interPlain (sofar : TypeSet) : List PlainSet → TypeSet
  | [] => sofar
  | x :: xs => interPlain (sofar.inter (ofPlain x)) xs

end

end TypeSet

end TypeFlow
