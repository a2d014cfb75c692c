import TypeFlow.Graph
/-!
# Structural equality of nodes

Two nodes are structurally equal if they cannot be told apart by kinds, payloads and edges. The
comparison assumes a pair equal once it has met it, so that it ends on graphs with cycles.
-/

namespace TypeFlow

namespace Graph

/-- Pair the targets of two lists of edges that agree in their roles. -/
def alignTargets : List Edge → List Edge → Option (List (NodeId × NodeId))
  | [], [] => some []
  | e :: es, f :: fs =>
    if e.role = f.role then (alignTargets es fs).map ((e.node, f.node) :: ·) else none
  | _, _ => none

/-- The pairs of targets that have to be equal for two nodes to be, unless the nodes differ
themselves. -/
def obligations (g : Graph) (a b : NodeId) : Option (List (NodeId × NodeId)) :=
  if g.kind a = g.kind b ∧ (g.payload a).agrees (g.payload b) then
    alignTargets (Edge.byRole (g.outgoing a)) (Edge.byRole (g.outgoing b))
  else none

/-- Compare the pairs of a stack; `assumed` are those that were met before. -/
def matchPairs (g : Graph) : Nat → List (NodeId × NodeId) → List (NodeId × NodeId) → Bool
  | 0, _, _ => true
  | _ + 1, _, [] => true
  | steps + 1, assumed, (a, b) :: stack =>
    if a = b ∨ (a, b) ∈ assumed then g.matchPairs steps assumed stack
    else
      match g.obligations a b with
      | none => false
      | some pairs => g.matchPairs steps ((a, b) :: assumed) (pairs ++ stack)

/-- How many pairs a comparison can meet: each pair of nodes brings at most one pair for each
edge of its first node. -/
def pairBound (g : Graph) : Nat := g.edgeCount * g.size

/-- Whether two nodes are structurally equal. -/
def deepEq (g : Graph) (a b : NodeId) : Bool := g.matchPairs (g.pairBound + 1) [] [(a, b)]

end Graph

end TypeFlow
