import TypeFlow.Flow.Site
/-!
# Seeding bounds

Before the rules run, every typable node gets a slot. References share the slot of their
definition. Declared types are then put into the bounds of what they are declared for, and two
kinds of node start out as able to yield everything: a function used as a value, and, on request,
an undeclared parameter of a function that no known call reaches.
-/

namespace TypeFlow

namespace Flow

/-- The definition with which a reference shares its bounds. -/
def definition? (g : Graph) (n : NodeId) : Option NodeId :=
  if g.kind n = .expr .ident ∨ g.kind n = .expr .fieldGet then
    (g.child? n .ref).filter fun d => (g.kind d).isTypable
  else none

/-- Slots for nodes that are no references. -/
def bindOwn (g : Graph) (t : BoundsTable) (typable : List NodeId) : BoundsTable :=
  (typable.filter fun n => (definition? g n).isNone).foldl BoundsTable.fresh t

/-- Bind a reference to the slot of its definition, or to a new one if that has none. -/
def bindReference (g : Graph) (t : BoundsTable) (n : NodeId) : BoundsTable :=
  match definition? g n with
  | none => t
  | some d =>
    match t.slot? d with
    | some s => t.share n s
    | none => t.fresh n

/-- A table with a slot for every typable node. -/
def bindAll (g : Graph) (typable : List NodeId) : BoundsTable :=
  typable.foldl (bindReference g) (bindOwn g .empty typable)

/-! ## Functions that known calls reach -/

/-- The nodes of a kind below a root. -/
def nodesOf (g : Graph) (root : NodeId) (kind : ExprKind) : List NodeId :=
  g.reachable root fun n => g.kind n = .expr kind

/-- The functions that a call names or may dispatch to by name, less those that are used as
values. -/
def directlyCalled (g : Graph) (root : NodeId) : List NodeId :=
  let called := (nodesOf g root .call).filterMap fun n => g.child? n .ref
  let names := (nodesOf g root .methodCall).filterMap g.name?
  let escaping := (nodesOf g root .ident).filterMap fun n => g.child? n .ref
  let dispatched := (classMethods g root).filter fun m => (g.name? m).any fun name => name ∈ names
  (called ++ dispatched).filter fun f => f ∉ escaping

/-! ## Declared types -/

/-- Everything is shown for an undeclared parameter of a function that no known call reaches. -/
def seedUndeclared (g : Graph) (called : List NodeId) (n : NodeId) : List Request :=
  match (g.parents n).head? with
  | some f => if f ∈ called then [] else [.widen n .univ]
  | none => []

/-- The declared type of the first function above a return slot that has one. -/
def declaredReturn? (g : Graph) (slot : NodeId) : Option NodeId :=
  (g.parents slot).findSome? fun f => g.child? f .returnType

/-- What the declaration of a node says about its bounds. -/
def seedNode (g : Graph) (called : List NodeId) (allowUntyped : Bool) (n : NodeId) :
    Except Fault (List Request) :=
  match g.kind n with
  | .decl .param =>
    match g.child? n .declaredType with
    | some type => do
      let types ← g.annotationSet type
      return [.widen n types, .narrow n types]
    | none => .ok (if allowUntyped then seedUndeclared g called n else [])
  | .decl .field =>
    match g.child? n .declaredType with
    | some type => do return [.narrow n (← g.annotationSet type)]
    | none => .ok []
  | .decl .returnSlot =>
    match declaredReturn? g n with
    | some type => do return [.narrow n (← g.annotationSet type)]
    | none => .ok []
  | .expr .ident =>
    if (g.child? n .ref).any fun d => g.kind d = .decl .function then .ok [.widen n .univ]
    else .ok []
  | _ => .ok []

/-- What a declared first assignment says about the bounds of its target. -/
def seedInit (g : Graph) (n : NodeId) : Except Fault (List Request) :=
  match g.child? n .target, g.child? n .declaredType with
  | some target, some type => do return [.narrow target (← g.annotationSet type)]
  | _, _ => .ok []

/-- What all declarations below a root say. -/
def seedRequests (g : Graph) (root : NodeId) (allowUntyped : Bool) (typable : List NodeId) :
    Except Fault (List Request) := do
  let declared ← typable.mapM (seedNode g (directlyCalled g root) allowUntyped)
  let inits ← (g.reachable root fun n => g.kind n = .stmt .varInit).mapM (seedInit g)
  return declared.flatten ++ inits.flatten

end Flow

end TypeFlow
