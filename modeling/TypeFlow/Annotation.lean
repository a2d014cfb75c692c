import TypeFlow.Graph
/-!
# Type annotations

The nodes that write types: as the type set they denote (`annotationSet`), and as text the way a
program would write them (`describeType`). Both follow the edges of type nodes, at most as many as
the graph has nodes; a chain that is longer goes in a circle and writes no type.
-/

namespace TypeFlow

namespace Graph

/-- The base type at the head of a generic annotation. -/
def annotationBase (g : Graph) (n : NodeId) : Except Fault BaseType :=
  match g.kind n with
  | .type (.base b) => .ok b
  | _ => .error (.missingPayload n .baseType)

/-- A container with an argument, if these go together. -/
def argedSet (b : BaseType) (arg : TypeSet) : Except Fault TypeSet :=
  match (TypeSet.arged b arg).check with
  | .ok _ => .ok (.arged b arg)
  | .error cause => .error (.malformedSet cause)

/-- The type set of an annotation of bounded depth. -/
def annotationOver (g : Graph) : Nat → NodeId → Except Fault TypeSet
  | 0, n => .error (.missingPayload n .typeNode)
  | depth + 1, n =>
    match g.kind n with
    | .type (.base b) => .ok (.base b)
    | .type .generic => do
      let base ← g.annotationBase (← g.requireChild n .base)
      let arg ← g.annotationOver depth (← g.requireChild n .arg)
      argedSet base arg
    | .type .named => do return .cls (← g.requireChild n .ref)
    | .type .dynamic => .ok .univ
    | .type .void => .ok .empty
    | _ => .error (.missingPayload n .typeNode)

/-- The type set that an annotation denotes. -/
def annotationSet (g : Graph) (n : NodeId) : Except Fault TypeSet := g.annotationOver (g.size + 1) n

/-- The text of a type node of bounded depth. -/
def describeOver (g : Graph) : Nat → NodeId → String
  | 0, _ => "?"
  | depth + 1, n =>
    match g.kind n with
    | .type (.base b) => b.name
    | .type .generic =>
      let part (role : Role) :=
        match g.child? n role with
        | some m => g.describeOver depth m
        | none => "?"
      part .base ++ "<" ++ part .arg ++ ">"
    | .type .named =>
      match g.child? n .ref with
      | some c => g.describeOver depth c
      | none => (g.name? n).getD "?"
    | .type .dynamic => "dyn"
    | .type .void => "void"
    | .decl .classDecl => (g.name? n).getD "?"
    | other => other.text

/-- A type node as a program would write it. -/
def describeType (g : Graph) (n : NodeId) : String := g.describeOver (g.size + 1) n

/-- The type node that a node was given. -/
def coloredType? (g : Graph) (n : NodeId) : Option NodeId := g.child? n .colored

end Graph

end TypeFlow
