import TypeFlow.Graph
/-!
# Editing a graph

Adding nodes, and setting and removing edges. Each edit keeps the two records of an edge
together: what `link` puts at both ends, `unlink` and its companions take away at both ends.
-/

namespace TypeFlow

namespace Graph

/-- Change the record of one node. -/
def update (g : Graph) (n : NodeId) (f : Node → Node) : Graph := ⟨g.nodes.modify n.index f⟩

/-- The number that the next node gets. -/
def fresh (g : Graph) : NodeId := ⟨g.size⟩

/-- Add a node without edges, numbered `g.fresh`. -/
def add (g : Graph) (kind : NodeKind) (payload : Payload) : Graph :=
  ⟨g.nodes.push ⟨kind, payload, [], []⟩⟩

/-- Give a node another kind. -/
def setKind (g : Graph) (n : NodeId) (kind : NodeKind) : Graph :=
  g.update n fun node => { node with kind := kind }

/-- Give a node another payload. -/
def setPayload (g : Graph) (n : NodeId) (payload : Payload) : Graph :=
  g.update n fun node => { node with payload := payload }

/-- Replace the list of outgoing edges of a node, and nothing at their other ends. -/
def setOutgoing (g : Graph) (n : NodeId) (edges : List Edge) : Graph :=
  g.update n fun node => { node with outgoing := edges }

/-- Replace the list of incoming edges of a node, and nothing at their other ends. -/
def setIncoming (g : Graph) (n : NodeId) (edges : List Edge) : Graph :=
  g.update n fun node => { node with incoming := edges }

/-- Record an edge at the end of the lists of both its nodes. -/
def link (g : Graph) (src : NodeId) (role : Role) (dst : NodeId) : Graph :=
  let h := g.setOutgoing src (g.outgoing src ++ [⟨role, dst⟩])
  h.setIncoming dst (h.incoming dst ++ [⟨role, src⟩])

/-- Drop the record of an edge at its target. -/
def dropIncoming (g : Graph) (src : NodeId) (e : Edge) : Graph :=
  g.setIncoming e.node ((g.incoming e.node).erase ⟨e.role, src⟩)

/-- Drop the first edge of a role. -/
def removeChild (g : Graph) (src : NodeId) (role : Role) : Graph :=
  match (g.outgoing src).find? (·.role = role) with
  | none => g
  | some e => (g.setOutgoing src ((g.outgoing src).eraseP (·.role = role))).dropIncoming src e

/-- Make an edge the only one of its role, at the end of the list. -/
def setChild (g : Graph) (src : NodeId) (role : Role) (dst : NodeId) : Graph :=
  (g.removeChild src role).link src role dst

/-- Put a node behind the items of a list, at the index `g.nextIndex src`. -/
def pushItem (g : Graph) (src dst : NodeId) : Graph := g.link src (.item (g.nextIndex src)) dst

/-- Drop the edges of a node that a test selects. -/
def removeWhere (g : Graph) (src : NodeId) (p : Edge → Bool) : Graph :=
  ((g.outgoing src).filter p).foldl (fun h e => h.dropIncoming src e)
    (g.setOutgoing src ((g.outgoing src).filter fun e => !p e))

/-- Drop the list that a node holds. -/
def clearItems (g : Graph) (src : NodeId) : Graph := g.removeWhere src (·.role.isItem)

/-- Drop every outgoing edge of a node. -/
def detach (g : Graph) (src : NodeId) : Graph := g.removeWhere src fun _ => true

/-! ## Replacing a node -/

/-- The incoming edges that a replacement moves: all but those from the new node, which would
turn into loops. -/
def redirected (g : Graph) (old new : NodeId) : List Edge :=
  if old = new then [] else (g.incoming old).filter (·.node ≠ new)

/-- Turn the edges of one role from `src` to `old` towards `new`, in place. -/
def redirectFrom (g : Graph) (old new src : NodeId) (role : Role) : Graph :=
  g.setOutgoing src ((g.outgoing src).map fun e => if e = ⟨role, old⟩ then ⟨role, new⟩ else e)

/-- Let every edge to `old` point at `new` instead. -/
def replace (g : Graph) (old new : NodeId) : Graph :=
  if old = new then g
  else
    let moved := g.redirected old new
    let h := moved.foldl (fun h e => h.redirectFrom old new e.node e.role) g
    let h := h.setIncoming old ((g.incoming old).filter (·.node = new))
    h.setIncoming new (h.incoming new ++ moved)

end Graph

end TypeFlow
