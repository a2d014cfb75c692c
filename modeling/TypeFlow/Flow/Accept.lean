import TypeFlow.Flow.Yield
/-!
# What places accept

The rules that narrow what nodes are permitted to yield: a value may yield only what its place
permits, an operator only what its table has, and a condition only booleans.
-/

namespace TypeFlow

namespace Flow

/-- The place and the value of an assignment or a return. -/
def bound? (g : Graph) (n : NodeId) : Option (NodeId × NodeId) :=
  (assignment? g n).or (returned? g n)

/-- A value may yield only what the place permits that it is bound to. -/
def acceptRule (g : Graph) : FlowRule where
  name := "assign-neg"
  applies n := (bound? g n).isSome
  asks t n :=
    match bound? g n with
    | none => .ok []
    | some (place, value) => .ok [.narrow value (t.permitted place)]

/-- Everything that an operator can yield. -/
def operatorDomain? : NodeKind → Option TypeSet
  | .expr (.binary op) => some op.domain
  | .expr (.unary op) => some op.domain
  | .expr .len => some (.base .int)
  | _ => none

/-- An operator may yield only what its table has. -/
def operatorRule (g : Graph) : FlowRule where
  name := "operator-neg"
  applies n := (operatorDomain? (g.kind n)).isSome
  asks _ n :=
    match operatorDomain? (g.kind n) with
    | some domain => .ok [.narrow n domain]
    | none => .ok []

/-- The condition of a branch or a loop may yield only a boolean. -/
def conditionRule (g : Graph) : FlowRule where
  name := "condition"
  applies n := g.kind n = .stmt .branch || g.kind n = .stmt .whileLoop
  asks _ n := do
    let cond ← g.requireChild n .cond
    return [.narrow cond (.base .bool)]

/-- Every rule, in the order of firing: parts before wholes, and yielding before accepting. -/
def rules (g : Graph) (methods : List NodeId) : List FlowRule :=
  [literalRule g, collectionRule g, selfRule g, callResultRule g, callArgsRule g methods,
    binaryRule g, unaryRule g, lenRule g, indexRule g, fieldGetRule g, assignRule g, returnRule g,
    acceptRule g, operatorRule g, conditionRule g]

/-- Updates are applied; how many requests changed a bound does not matter to the rules. -/
def commit : Commit BoundsTable Update := fun u => do
  let _ ← u.apply
  return ()

end Flow

end TypeFlow
