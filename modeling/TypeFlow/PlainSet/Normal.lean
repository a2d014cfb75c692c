import TypeFlow.PlainSet
/-!
# Normal form of plain type sets

`simplify` flattens an operator inside an operator of its own kind, drops repeated operands and
collapses an operator that is left with fewer than two. It works from the inside out, so that
what a collapse exposes is flattened in turn.
-/

namespace TypeFlow

namespace PlainSet

/-- The operands an operand brings to a union. -/
def spreadAny : PlainSet → List PlainSet
  | .anyOf ops => ops
  | other => [other]

/-- The operands an operand brings to an intersection. -/
def spreadAll : PlainSet → List PlainSet
  | .allOf ops => ops
  | other => [other]

/-- Keep the first of equal operands; `kept` are those met before. -/
def distinctFrom (kept : List PlainSet) : List PlainSet → List PlainSet
  | [] => []
  | x :: xs => if x ∈ kept then distinctFrom kept xs else x :: distinctFrom (x :: kept) xs

/-- Keep the first of equal operands. -/
def distinct (ops : List PlainSet) : List PlainSet := distinctFrom [] ops

/-- An operator over a list of operands: nothing for none, and the operand itself for one. -/
def collapse (operator : List PlainSet → PlainSet) : List PlainSet → PlainSet
  | [] => .empty
  | [x] => x
  | ops => operator ops

mutual

/-- The normal form of a plain type set. -/
def simplify : PlainSet → PlainSet
  | .anyOf ops => collapse .anyOf (distinct ((simplifyEach ops).flatMap spreadAny))
  | .allOf ops => collapse .allOf (distinct ((simplifyEach ops).flatMap spreadAll))
  | leaf => leaf

def simplifyEach : List PlainSet → List PlainSet
  | [] => []
  | x :: xs => simplify x :: simplifyEach xs

end

/-- Whether the set is its own normal form. -/
def isSimplified (a : PlainSet) : Bool := simplify a = a

end PlainSet

end TypeFlow
