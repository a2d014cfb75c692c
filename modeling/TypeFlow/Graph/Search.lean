import TypeFlow.Graph
/-!
# Searching a graph

A search visits every node that it can reach from its start, each once. Downwards it goes along
outgoing edges in the order of their roles, deep before broad; upwards it goes along incoming
edges in stored order, near before far. It does not continue past a pruned node, which it still
visits; the start is always left.

`visits` is the order of the visits, and `collect` the members of that list that pass a test.
`collectUntil` ends the search behind the first of them that passes a second test, and `first?`
behind the first of them.
-/

namespace TypeFlow

/-- Along edges from their sources, or against them. -/
inductive Direction where
  | down
  | up
  deriving DecidableEq, Repr

/-- Where a search starts and which way it goes. -/
structure Search where
  direction : Direction
  start : NodeId
  /-- Whether the start is itself visited. -/
  includeStart : Bool
  /-- The edges that the search crosses. -/
  follow : Role → Bool
  /-- The nodes that it does not continue past. -/
  prune : NodeId → Bool

namespace Search

/-- Search a node and all below it along structural edges. -/
def down (start : NodeId) : Search := ⟨.down, start, true, Role.isStructural, fun _ => false⟩

/-- Search all above a node along structural edges. -/
def up (start : NodeId) : Search := ⟨.up, start, false, Role.isStructural, fun _ => false⟩

/-- Whether the search continues past a node. -/
def expands (s : Search) (n : NodeId) : Bool := n = s.start || !s.prune n

/-- Whether a node that the search comes to counts as visited: any but a start that it leaves
out. -/
def reports (s : Search) (n : NodeId) : Bool := n ≠ s.start || s.includeStart

end Search

namespace Graph

/-- The nodes to go down to from a node, in order. -/
def below (g : Graph) (s : Search) (n : NodeId) : List NodeId :=
  if s.expands n then (Edge.byRole ((g.outgoing n).filter (s.follow ·.role))).map (·.node) else []

/-- The nodes to go up to from a node, in order. -/
def above (g : Graph) (s : Search) (n : NodeId) : List NodeId :=
  if s.expands n then ((g.incoming n).filter (s.follow ·.role)).map (·.node) else []

/-- Visit the nodes of a stack from the top. `seen` are those visited so far, the last first. Every
step but the first comes from an edge. -/
def descend (g : Graph) (s : Search) : Nat → List NodeId → List NodeId → List NodeId
  | 0, seen, _ => seen.reverse
  | _ + 1, seen, [] => seen.reverse
  | steps + 1, seen, n :: stack =>
    if n ∈ seen then g.descend s steps seen stack
    else g.descend s steps (n :: seen) (g.below s n ++ stack)

/-- Queue the nodes that were not yet met. -/
def enqueue : List NodeId → List NodeId → List NodeId → List NodeId × List NodeId
  | met, queue, [] => (met, queue)
  | met, queue, n :: ns =>
    if n ∈ met then enqueue met queue ns else enqueue (met ++ [n]) (queue ++ [n]) ns

/-- Visit the nodes of a queue from the front. `met` are those that are or were queued, the first
first; this is the order of the visits. -/
def ascend (g : Graph) (s : Search) : Nat → List NodeId → List NodeId → List NodeId
  | 0, met, _ => met
  | _ + 1, met, [] => met
  | steps + 1, met, n :: queue =>
    let (met, queue) := enqueue met queue (g.above s n)
    g.ascend s steps met queue

/-- Every node that the search reaches, in the order in which it does. -/
def visits (g : Graph) (s : Search) : List NodeId :=
  let order :=
    match s.direction with
    | .down => g.descend s (g.edgeCount + 1) [] [s.start]
    | .up => g.ascend s (g.size + 1) [s.start] [s.start]
  if s.includeStart then order else order.filter (· ≠ s.start)

/-- The visited nodes that pass a test. -/
def collect (g : Graph) (s : Search) (p : NodeId → Bool) : List NodeId := (g.visits s).filter p

/-- Visit the nodes of a stack as `descend` does and keep those that pass `p`, up to the first of
them at which the search stops. -/
def descendUntil (g : Graph) (s : Search) (p stop : NodeId → Bool) :
    Nat → List NodeId → List NodeId → List NodeId
  | 0, _, _ => []
  | _ + 1, _, [] => []
  | steps + 1, seen, n :: stack =>
    if n ∈ seen then g.descendUntil s p stop steps seen stack
    else if s.reports n && p n then
      if stop n then [n]
      else n :: g.descendUntil s p stop steps (n :: seen) (g.below s n ++ stack)
    else g.descendUntil s p stop steps (n :: seen) (g.below s n ++ stack)

/-- Visit the nodes of a queue as `ascend` does and keep those that pass `p`, up to the first of
them at which the search stops. -/
def ascendUntil (g : Graph) (s : Search) (p stop : NodeId → Bool) :
    Nat → List NodeId → List NodeId → List NodeId
  | 0, _, _ => []
  | _ + 1, _, [] => []
  | steps + 1, met, n :: queue =>
    let next := enqueue met queue (g.above s n)
    if s.reports n && p n then
      if stop n then [n] else n :: g.ascendUntil s p stop steps next.1 next.2
    else g.ascendUntil s p stop steps next.1 next.2

/-- The visited nodes that pass a test, up to the first of them at which the search stops. -/
def collectUntil (g : Graph) (s : Search) (p stop : NodeId → Bool) : List NodeId :=
  match s.direction with
  | .down => g.descendUntil s p stop (g.edgeCount + 1) [] [s.start]
  | .up => g.ascendUntil s p stop (g.size + 1) [s.start] [s.start]

/-- The first visited node that passes a test. -/
def first? (g : Graph) (s : Search) (p : NodeId → Bool) : Option NodeId := (g.visits s).find? p

/-- The nearest node above that passes a test. -/
def nearestAncestor? (g : Graph) (start : NodeId) (p : NodeId → Bool) : Option NodeId :=
  g.first? (.up start) p

/-- The nodes below a root, and the root, that pass a test. -/
def reachable (g : Graph) (root : NodeId) (p : NodeId → Bool) : List NodeId :=
  g.collect (.down root) p

end Graph

end TypeFlow
