import TypeFlow.Rule
/-!
# Operator sequences

`a + b * c < d` is parsed as one list of operands and operator tokens. Lowering folds it into a
tree of binary nodes by precedence climbing: `pending` holds the operators that still wait for
their right operand, each with its left one, the innermost first, and their strengths rise
strictly towards the innermost.
-/

namespace TypeFlow

/-- Whether a node hangs in the tree of the program; a retired node does not. -/
def Graph.isAttached (g : Graph) (n : NodeId) : Bool := !(g.parents n).isEmpty

namespace Lowering

/-! ## Reading a sequence -/

/-- A place for an operand must not hold a token. -/
def operandAt (g : Graph) (n : NodeId) : Except Fault NodeId :=
  if g.kind n = .surface .opToken then .error (.malformedSurface n .operatorForOperand) else .ok n

/-- A place for an operator must hold the token of one. -/
def operatorAt (g : Graph) (n : NodeId) : Except Fault BinaryOp :=
  if g.kind n = .surface .opToken then do
    let token ← g.requireName n
    match BinaryOp.ofToken? token with
    | some op => .ok op
    | none => .error (.malformedSurface n (.unknownOperator token))
  else .error (.malformedSurface n .operandForOperator)

/-- Read operators and the operands to their right; `uneven` is the fault of a list that ends in
an operator. -/
def readOperators (g : Graph) (uneven : Fault) :
    List NodeId → Except Fault (List (BinaryOp × NodeId))
  | [] => .ok []
  | [_] => .error uneven
  | t :: x :: rest => do
    let op ← operatorAt g t
    let operand ← operandAt g x
    let more ← readOperators g uneven rest
    return (op, operand) :: more

/-- Read the first operand, and the operators with the operands to their right. -/
def readSequence (g : Graph) (seq : NodeId) : Except Fault (NodeId × List (BinaryOp × NodeId)) :=
  let items := g.items seq
  let uneven := Fault.malformedSurface seq (.endsInOperator items.length)
  if items.length % 2 = 0 then .error uneven
  else
    match items with
    | [] => .error uneven
    | x :: rest => do
      let first ← operandAt g x
      let more ← readOperators g uneven rest
      return (first, more)

/-! ## Folding it -/

/-- A new binary node over two operands. -/
def combine (op : BinaryOp) (left right : Handle) : Draft Handle := do
  let n ← Draft.node (.expr (.binary op)) .none
  Draft.setChild n .left left
  Draft.setChild n .right right
  return n

/-- Give `right` to the pending operators that bind at least as strongly as `strength`, innermost
first. -/
def close (strength : Nat) : List (Handle × BinaryOp) → Handle →
    Draft (List (Handle × BinaryOp) × Handle)
  | [], right => return ([], right)
  | (left, op) :: pending, right =>
    if strength ≤ op.precedence then do
      let n ← combine op left right
      close strength pending n
    else return ((left, op) :: pending, right)

/-- Fold the rest of a sequence behind `left`. -/
def climb : List (Handle × BinaryOp) → Handle → List (BinaryOp × NodeId) → Draft Handle
  | pending, last, [] => do
    let (_, root) ← close 0 pending last
    return root
  | pending, last, (op, x) :: rest => do
    let (pending, left) ← close op.precedence pending last
    climb ((left, op) :: pending) x rest

/-- Fold an operator sequence into a tree of binary nodes. -/
def foldOperators : GraphRule where
  name := "fold-operators"
  applies g n := g.kind n = .surface .operatorSeq && g.isAttached n
  effect g n := do
    let (first, rest) ← readSequence g n
    return some <| Draft.patch do
      let root ← climb [] first rest
      Draft.retire n root

end Lowering

end TypeFlow
