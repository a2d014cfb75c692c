import TypeFlow.Graph.Edit
/-!
# Building a graph step by step

The edits that add to a graph, as steps of a computation. A step that adds a node answers its
number.
-/

namespace TypeFlow

/-- A computation that adds to a graph. -/
abbrev Build := StateM Graph

namespace Build

/-- Add a node without edges. -/
def addNode (kind : NodeKind) (payload : Payload) : Build NodeId :=
  fun g => (g.fresh, g.add kind payload)

/-- Make an edge the only one of its role. -/
def setChild (src : NodeId) (role : Role) (dst : NodeId) : Build Unit :=
  modify (·.setChild src role dst)

/-- Set a child if there is one to set. -/
def setChild? (src : NodeId) (role : Role) : Option NodeId → Build Unit
  | some dst => setChild src role dst
  | none => pure ()

/-- Append an item to the list of a node. -/
def pushItem (src dst : NodeId) : Build Unit := modify (·.pushItem src dst)

/-- Append items in order. -/
def pushItems (src : NodeId) (items : List NodeId) : Build Unit := items.forM (pushItem src)

end Build

end TypeFlow
