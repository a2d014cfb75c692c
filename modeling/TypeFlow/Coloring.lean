import TypeFlow.Annotation
import TypeFlow.Bounds
import TypeFlow.Graph.Build
import TypeFlow.TypeSet.Stem
/-!
# Coloring

Once bounds are stable, every node gets one type node for what it is both shown and permitted to
yield. Type nodes are shared: `Palette.made` remembers the node of every set that was asked for. A
union is colored by its stem, or as dynamic if it has none; a class is its own color. Only calls
and return slots may yield nothing, and are void then.
-/

namespace TypeFlow

/-- How many nodes were colored, and how many of them as dynamic and as void. -/
structure ColorStats where
  colored : Nat
  dynamic : Nat
  void : Nat
  deriving DecidableEq, Repr

/-- A graph with the type nodes made so far. -/
structure Palette where
  graph : Graph
  made : List (TypeSet × NodeId)
  void? : Option NodeId
  stats : ColorStats

namespace Palette

/-- No type node is made yet. -/
def ofGraph (g : Graph) : Palette := ⟨g, [], none, ⟨0, 0, 0⟩⟩

/-- A computation on a palette. -/
abbrev Mix := StateM Palette

/-- Make a step on the graph. -/
def onGraph {α : Type} (step : Build α) : Mix α := fun p =>
  let (a, g) := step p.graph
  (a, { p with graph := g })

/-- The type node of a set: the one made before, or else a new one that is remembered. -/
def remember (types : TypeSet) (make : Mix NodeId) : Mix NodeId := do
  match (← get).made.lookup types with
  | some n => return n
  | none =>
    let n ← make
    modify fun p => { p with made := (types, n) :: p.made }
    return n

/-- The type node for nothing. -/
def voidNode : Mix NodeId := do
  match (← get).void? with
  | some n => return n
  | none =>
    let n ← onGraph (Build.addNode (.type .void) .none)
    modify fun p => { p with void? := some n }
    return n

/-- The type node for everything. -/
def dynamicNode : Mix NodeId := remember .univ (onGraph (Build.addNode (.type .dynamic) .none))

/-- The type node of a base type. -/
def baseNode (b : BaseType) : Mix NodeId :=
  remember (.base b) (onGraph (Build.addNode (.type (.base b)) .none))

/-- A new node for a container with an argument. -/
def addGeneric (base arg : NodeId) : Build NodeId := do
  let n ← Build.addNode (.type .generic) .none
  Build.setChild n .base base
  Build.setChild n .arg arg
  return n

/-- The type node of anything but a union. -/
def leafNode : TypeSet → Mix NodeId
  | .cls decl => return decl
  | .base b => baseNode b
  | .arged b arg =>
    remember (.arged b arg) do
      let base ← baseNode b
      let argNode ← leafNode arg
      onGraph (addGeneric base argNode)
  | .empty => voidNode
  | .univ | .anyOf _ => dynamicNode

/-- The type node of a set. -/
def typeNode (types : TypeSet) : Mix NodeId :=
  match types with
  | .anyOf _ => remember types (leafNode (types.stem?.getD .univ))
  | other => leafNode other

/-- Whether a node may yield nothing: a call into untyped code, a call whose result is dropped, and
the slot of a function that returns nothing. -/
def mayYieldNothing (g : Graph) (n : NodeId) : Bool :=
  match g.kind n with
  | .expr .sysCall | .expr .dynCall | .expr .methodCall | .decl .returnSlot => true
  | .expr .call | .expr .objectInit => (g.parents n).any fun p => g.kind p = .stmt .exprStmt
  | _ => false

/-- Give a node its type node and count it. -/
def paint (n type : NodeId) : Mix Unit := do
  onGraph (Build.setChild n .colored type)
  modify fun p => { p with stats := { p.stats with colored := p.stats.colored + 1 } }

/-- Count a node that is void. -/
def countVoid : Mix Unit :=
  modify fun p => { p with stats := { p.stats with void := p.stats.void + 1 } }

/-- Count a type node if it is the dynamic one. -/
def countDynamic (type : NodeId) : Mix Unit :=
  modify fun p =>
    if p.graph.kind type = .type .dynamic then
      { p with stats := { p.stats with dynamic := p.stats.dynamic + 1 } }
    else p

/-- Color a node from its bounds. -/
def colorBounds (n : NodeId) (b : Bounds) : Run Palette Unit := do
  match b.valid with
  | .error cause => throw (.malformedSet cause)
  | .ok .empty => do
    let g := (← get).graph
    if mayYieldNothing g n then do
      countVoid
      paint n (← voidNode)
    else throw (.noConsistentType n (g.kind n) b.shown b.permitted)
  | .ok valid => do
    let type ← typeNode valid
    countDynamic type
    paint n type

/-- Color a node, if it has bounds. -/
def color (t : BoundsTable) (n : NodeId) : Run Palette Unit :=
  match t.of? n with
  | none => pure ()
  | some b => colorBounds n b

end Palette

namespace Graph

/-- Color nodes from their bounds. -/
def colorAll (t : BoundsTable) (nodes : List NodeId) : Run Graph ColorStats := fun g =>
  let (answer, p) := (nodes.forM (Palette.color t)).run (Palette.ofGraph g)
  (answer.map fun _ => p.stats, p.graph)

end Graph

end TypeFlow
