import TypeFlow.Operator
import TypeFlow.PlainSet.Normal
import TypeFlow.TypeSet.OfPlain
/-!
# Operator typing

What an operator yields on operands of given base types. A binary operator is typed by rows that
hold for both orders of the operands (`BinaryOp.result?_comm`); its domain is the union of all
results.
-/

namespace TypeFlow

namespace BinaryOp

/-- Two operand types in order and the type of the result. -/
structure Row where
  low : BaseType
  high : BaseType
  result : BaseType
  deriving DecidableEq, Repr

/-- Arithmetic stays among integers and turns to floats when one operand is one. -/
def arithmeticRows : List Row :=
  [⟨.int, .int, .int⟩, ⟨.int, .float, .float⟩, ⟨.float, .float, .float⟩]

/-- Numbers compare with numbers, strings with strings and booleans with booleans. -/
def comparisonRows : List Row :=
  [⟨.int, .int, .bool⟩, ⟨.int, .float, .bool⟩, ⟨.float, .float, .bool⟩,
    ⟨.string, .string, .bool⟩, ⟨.bool, .bool, .bool⟩]

/-- The operand types that an operator takes. -/
def rows (op : BinaryOp) : List Row :=
  if op = .add then arithmeticRows ++ [⟨.string, .string, .string⟩]
  else if op.isArithmetic then arithmeticRows
  else if op.isComparison then comparisonRows
  else [⟨.bool, .bool, .bool⟩]

/-- The type of `a op b`, if there is one. -/
def result? (op : BinaryOp) (a b : BaseType) : Option BaseType :=
  (op.rows.find? fun r => (r.low = a ∧ r.high = b) ∨ (r.low = b ∧ r.high = a)).map (·.result)

/-- Everything the operator can yield. -/
def domain (op : BinaryOp) : TypeSet :=
  .ofPlain (PlainSet.unionAll (op.rows.map fun r => .base r.result)).simplify

theorem result?_comm (op : BinaryOp) (a b : BaseType) : op.result? a b = op.result? b a := by
  unfold result?
  congr 2
  funext r
  exact decide_eq_decide.2 or_comm

end BinaryOp

namespace UnaryOp

/-- The type of the operator applied to an operand of a type, if there is one. -/
def result? : UnaryOp → BaseType → Option BaseType
  | .not, .bool => some .bool
  | .neg, .int => some .int
  | .neg, .float => some .float
  | _, _ => none

/-- Everything the operator can yield. -/
def domain : UnaryOp → TypeSet
  | .not => .base .bool
  | .neg => .ofLeaves [.base .int, .base .float]

end UnaryOp

end TypeFlow
