import TypeFlow.Annotation
import TypeFlow.Bounds.Update
import TypeFlow.Graph.Search
/-!
# Where types flow

The places of a program between which types flow, read off its graph: the members of classes and
functions, the classes that a receiver may hold, what a call yields, and which value is bound to
which place.
-/

namespace TypeFlow

namespace Flow

/-- The nearest declaration of a kind around a node. -/
def enclosing? (g : Graph) (n : NodeId) (kind : DeclKind) : Option NodeId :=
  g.nearestAncestor? n fun m => g.kind m = .decl kind

/-- The members of one kind of a class or a function. -/
def members (g : Graph) (host : NodeId) (kind : DeclKind) : List NodeId :=
  (g.items host).filter fun m => g.kind m = .decl kind

/-- The first member of a kind and a name. -/
def member? (g : Graph) (host : NodeId) (kind : DeclKind) (name : String) : Option NodeId :=
  (members g host kind).find? fun m => g.name? m = some name

/-- The functions below a root that a class holds. -/
def classMethods (g : Graph) (root : NodeId) : List NodeId :=
  g.reachable root fun n =>
    g.kind n = .decl .function && (g.parents n).any fun p => g.kind p = .decl .classDecl

/-- The methods of a name among a list of methods. -/
def methodsNamed (g : Graph) (methods : List NodeId) (name : String) : List NodeId :=
  methods.filter fun m => g.name? m = some name

/-! ## Receivers and results -/

/-- What a receiver may hold, as far as is shown. -/
inductive Receiver where
  /-- Nothing is shown yet. -/
  | pending
  /-- Not classes alone: its members are untyped. -/
  | dynamic
  | classes (decls : List NodeId)
  deriving DecidableEq, Repr

/-- The class that a leaf is. -/
def classOf? : TypeSet → Option NodeId
  | .cls decl => some decl
  | _ => none

/-- What a node may hold as a receiver: classes, if every leaf shown is one. -/
def receiver (t : BoundsTable) (n : NodeId) : Receiver :=
  let shown := t.shown n
  if shown = .empty then .pending
  else
    match shown.leaves.mapM classOf? with
    | some decls => .classes decls
    | none => .dynamic

/-- What a call of a function yields: its declared type, or else what its returns were shown to
yield so far. -/
def calleeResult (g : Graph) (t : BoundsTable) (func : NodeId) : Except Fault TypeSet :=
  match g.child? func .returnType with
  | some type => g.annotationSet type
  | none =>
    match g.child? func .returnSlot with
    | some slot => .ok (t.shown slot)
    | none => .ok .empty

/-- The union of well-formed sets onto `sofar`. -/
def joinOnto : TypeSet → List TypeSet → Except Fault TypeSet
  | sofar, [] => .ok sofar
  | sofar, x :: xs =>
    match sofar.union? x with
    | .error cause => .error (.malformedSet cause)
    | .ok joined => joinOnto joined xs

/-- The union of well-formed sets, unless it is empty. -/
def join? (sets : List TypeSet) : Except Fault (Option TypeSet) := do
  let joined ← joinOnto .empty sets
  return if joined = .empty then none else some joined

/-! ## Values and the places they are bound to -/

/-- The place and the value of an assignment; a field is the place of its default. -/
def assignment? (g : Graph) (n : NodeId) : Option (NodeId × NodeId) :=
  match g.kind n with
  | .stmt .varInit | .stmt .assign => do return (← g.child? n .target, ← g.child? n .value)
  | .decl .field => do return (n, ← g.child? n .value)
  | _ => none

/-- The place and the value of a return: the slot of the function around it. -/
def returned? (g : Graph) (n : NodeId) : Option (NodeId × NodeId) :=
  if g.kind n = .stmt .ret then do
    let value ← g.child? n .value
    let func ← enclosing? g n .function
    return (← g.child? func .returnSlot, value)
  else none

end Flow

end TypeFlow
