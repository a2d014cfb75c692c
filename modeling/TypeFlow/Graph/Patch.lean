import TypeFlow.Graph.Edit
/-!
# Patches

A patch describes edits of a graph as data. It may mention nodes that do not exist yet, through
handles to the nodes it creates. `Graph.apply` creates them all first and then makes the edits in
order; an edit with a handle to a node that the patch does not create stops it, and what was done
before stays.
-/

namespace TypeFlow

/-- A node as a patch names it. -/
inductive Handle where
  /-- A node of the graph. -/
  | old (node : NodeId)
  /-- A node that the patch creates, counted from zero. -/
  | new (index : Nat)
  deriving DecidableEq, Repr

instance : Coe NodeId Handle := ⟨.old⟩

/-- One edit of a graph, through handles. -/
inductive Edit where
  | setChild (src : Handle) (role : Role) (dst : Handle)
  | removeChild (src : Handle) (role : Role)
  | pushItem (src dst : Handle)
  | clearItems (src : Handle)
  /-- Let every edge to `old` point at `new`. -/
  | replace (old new : Handle)
  | detach (node : Handle)
  | setKind (node : Handle) (kind : NodeKind)
  | setPayload (node : Handle) (payload : Payload)
  deriving DecidableEq, Repr

/-- Nodes to create and edits to make after that. -/
structure Patch where
  nodes : List (NodeKind × Payload)
  edits : List Edit
  deriving DecidableEq, Repr

namespace Patch

/-- The patch that does nothing. -/
def empty : Patch := ⟨[], []⟩

/-- Whether the patch neither creates nor edits anything. -/
def isEmpty (p : Patch) : Bool := p.nodes.isEmpty && p.edits.isEmpty

/-- The patch with one more edit at its end. -/
def extend (p : Patch) (e : Edit) : Patch := { p with edits := p.edits ++ [e] }

end Patch

/-! ## Drafting a patch -/

/-- A computation that writes a patch. -/
abbrev Draft := StateM Patch

namespace Draft

/-- Create a node when the patch is applied. -/
def node (kind : NodeKind) (payload : Payload) : Draft Handle :=
  fun p => (.new p.nodes.length, { p with nodes := p.nodes ++ [(kind, payload)] })

/-- Make an edit when the patch is applied. -/
def edit (e : Edit) : Draft Unit := modify (·.extend e)

/-- Set a child when the patch is applied. -/
def setChild (src : Handle) (role : Role) (dst : Handle) : Draft Unit :=
  edit (.setChild src role dst)

/-- Append an item when the patch is applied. -/
def pushItem (src dst : Handle) : Draft Unit := edit (.pushItem src dst)

/-- Drop all items of a node when the patch is applied. -/
def clearItems (src : Handle) : Draft Unit := edit (.clearItems src)

/-- Change a kind when the patch is applied. -/
def setKind (node : Handle) (kind : NodeKind) : Draft Unit := edit (.setKind node kind)

/-- Drop the outgoing edges of a node when the patch is applied. -/
def detach (node : Handle) : Draft Unit := edit (.detach node)

/-- Put `new` in the place of `old`: redirect what points at `old`, then drop its edges. -/
def retire (old new : Handle) : Draft Unit := do
  edit (.replace old new)
  edit (.detach old)

/-- The patch that a draft writes. -/
def patch (d : Draft Unit) : Patch := (d.run .empty).2

end Draft

/-! ## Applying a patch -/

namespace Handle

/-- The node that a handle names, where `created` are the nodes of the patch. -/
def resolve (created : List NodeId) : Handle → Except Fault NodeId
  | .old n => .ok n
  | .new i =>
    match created[i]? with
    | some n => .ok n
    | none => .error (.staleHandle i)

end Handle

namespace Graph

/-- Make one edit. The handle of the source is looked up first. -/
def applyEdit (g : Graph) (created : List NodeId) : Edit → Except Fault Graph
  | .setChild src role dst => do
    let s ← src.resolve created
    let d ← dst.resolve created
    return g.setChild s role d
  | .removeChild src role => do
    let s ← src.resolve created
    return g.removeChild s role
  | .pushItem src dst => do
    let s ← src.resolve created
    let d ← dst.resolve created
    return g.pushItem s d
  | .clearItems src => do
    let s ← src.resolve created
    return g.clearItems s
  | .replace old new => do
    let o ← old.resolve created
    let n ← new.resolve created
    return g.replace o n
  | .detach node => do
    let n ← node.resolve created
    return g.detach n
  | .setKind node kind => do
    let n ← node.resolve created
    return g.setKind n kind
  | .setPayload node payload => do
    let n ← node.resolve created
    return g.setPayload n payload

/-- Make edits in order, up to the first that fails. -/
def applyEdits (created : List NodeId) : List Edit → Run Graph Unit
  | [] => pure ()
  | e :: es => do
    match (← get).applyEdit created e with
    | .error fault => throw fault
    | .ok g =>
      set g
      applyEdits created es

/-- Add nodes in order. -/
def addAll (g : Graph) (nodes : List (NodeKind × Payload)) : Graph :=
  nodes.foldl (fun h n => h.add n.1 n.2) g

/-- The numbers that a patch's nodes get. -/
def freshIds (g : Graph) (count : Nat) : List NodeId :=
  (List.range count).map fun i => ⟨g.size + i⟩

/-- Apply a patch; the answer is the nodes that it created. -/
def apply (p : Patch) : Run Graph (List NodeId) := do
  let created := (← get).freshIds p.nodes.length
  modify (·.addAll p.nodes)
  applyEdits created p.edits
  return created

end Graph

end TypeFlow
