import TypeFlow.Fault
import TypeFlow.Node.Payload
/-!
# Program graphs

A graph numbers its nodes from zero and keeps every edge at both ends: as an outgoing edge of its
source, with the target, and as an incoming edge of its target, with the source. A node is never
removed; one that nothing points at is merely out of reach.

This module has the type and the queries. A number outside the graph reads as a bare block.
-/

namespace TypeFlow

/-- A role and the node at the other end. -/
structure Edge where
  role : Role
  node : NodeId
  deriving DecidableEq, Repr, Inhabited

/-- A node with the edges from it and to it, each list in the order of adding. -/
structure Node where
  kind : NodeKind
  payload : Payload
  outgoing : List Edge
  incoming : List Edge
  deriving DecidableEq, Repr

instance : Inhabited Node := ⟨⟨default, .none, [], []⟩⟩

/-- Put an edge into its place by role, before those of the same role. -/
def Edge.insertByRole (e : Edge) : List Edge → List Edge
  | [] => [e]
  | f :: fs => if e.role.position ≤ f.role.position then e :: f :: fs else f :: e.insertByRole fs

/-- The edges in the order of their roles; equal roles keep their order. -/
def Edge.byRole (edges : List Edge) : List Edge := edges.foldr Edge.insertByRole []

/-- Nodes, numbered by their places. -/
structure Graph where
  nodes : Array Node
  deriving DecidableEq, Repr

namespace Graph

/-- The graph without nodes. -/
def empty : Graph := ⟨#[]⟩

instance : Inhabited Graph := ⟨empty⟩

/-- How many nodes were ever added. -/
def size (g : Graph) : Nat := g.nodes.size

/-- How many edges the graph has. -/
def edgeCount (g : Graph) : Nat := g.nodes.toList.foldr (fun n count => n.outgoing.length + count) 0

/-- Whether a number is that of a node of the graph. -/
def has (g : Graph) (n : NodeId) : Bool := n.index < g.size

/-- The node of a number. -/
def node (g : Graph) (n : NodeId) : Node := g.nodes.getD n.index default

/-- What a node is. -/
def kind (g : Graph) (n : NodeId) : NodeKind := (g.node n).kind

/-- What a node carries. -/
def payload (g : Graph) (n : NodeId) : Payload := (g.node n).payload

/-- The edges from a node, with their targets, in the order of adding. -/
def outgoing (g : Graph) (n : NodeId) : List Edge := (g.node n).outgoing

/-- The edges to a node, with their sources, in the order of adding. -/
def incoming (g : Graph) (n : NodeId) : List Edge := (g.node n).incoming

/-- The name of an identifier, a call or a declaration. -/
def name? (g : Graph) (n : NodeId) : Option String := (g.payload n).name?

/-- The name of a node that must have one. -/
def requireName (g : Graph) (n : NodeId) : Except Fault String :=
  match g.name? n with
  | some name => .ok name
  | none => .error (.missingPayload n .name)

/-- The sources of the structural edges that point at a node. -/
def parents (g : Graph) (n : NodeId) : List NodeId :=
  ((g.incoming n).filter (·.role.isStructural)).map (·.node)

/-- The target of the first edge of a role. -/
def child? (g : Graph) (n : NodeId) (role : Role) : Option NodeId :=
  ((g.outgoing n).find? (·.role = role)).map (·.node)

/-- Whether a node has an edge of a role. -/
def hasChild (g : Graph) (n : NodeId) (role : Role) : Bool := (g.child? n role).isSome

/-- The target of the edge of a role that must be there. -/
def requireChild (g : Graph) (n : NodeId) (role : Role) : Except Fault NodeId :=
  match g.child? n role with
  | some m => .ok m
  | none => .error (.missingChild n role)

/-- The edges to the items of the list that a node holds, by index. -/
def itemEdges (g : Graph) (n : NodeId) : List Edge :=
  Edge.byRole ((g.outgoing n).filter (·.role.isItem))

/-- The ordered list that a node holds. -/
def items (g : Graph) (n : NodeId) : List NodeId := (g.itemEdges n).map (·.node)

/-- The index after all those in use. -/
def nextIndex (g : Graph) (n : NodeId) : UInt32 :=
  ((g.outgoing n).filterMap (·.role.index?)).foldl (fun top i => max top (i + 1)) 0

end Graph

end TypeFlow
