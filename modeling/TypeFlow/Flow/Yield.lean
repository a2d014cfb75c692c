import TypeFlow.Flow.Site
import TypeFlow.Operator.Typing
import TypeFlow.Rule
import TypeFlow.TypeSet.Stem
/-!
# What expressions yield

The rules that widen what nodes are shown to yield, from the parts of an expression to the whole
and from values to the places they are bound to. The rule for arguments also narrows: a place that
permits less narrows the argument that is bound to it.

A rule is written as what it asks of the table (`FlowRule.asks`). As a rewriting rule
(`FlowRule.toRule`) it takes up those of its requests that would change the table, and is silent
where none would.
-/

namespace TypeFlow

/-- A rule that updates bounds: where it applies, and what it asks of a table there. -/
structure FlowRule where
  name : String
  applies : NodeId → Bool
  asks : BoundsTable → NodeId → Except Fault (List Request)

/-- The rule that takes up the requests that change something. -/
def FlowRule.toRule (r : FlowRule) : Rule BoundsTable Update where
  name := r.name
  applies _ n := r.applies n
  effect t n := do
    let requests ← r.asks t n
    return (Update.ofRequests t requests).nonempty?

namespace Flow

/-! ## Literals -/

/-- The type of a simple literal. -/
def literalBase? : NodeKind → Option BaseType
  | .expr .intLit => some .int
  | .expr .floatLit => some .float
  | .expr .strLit => some .string
  | .expr .boolLit => some .bool
  | _ => none

/-- A simple literal yields its base type. -/
def literalRule (g : Graph) : FlowRule where
  name := "literal"
  applies n := (literalBase? (g.kind n)).isSome
  asks _ n :=
    match literalBase? (g.kind n) with
    | some b => .ok [.widen n (.base b)]
    | none => .ok []

/-- The container that a collection literal makes. -/
def literalContainer? : NodeKind → Option BaseType
  | .expr .listLit => some .list
  | .expr .setLit => some .set
  | .expr .mapLit => some .map
  | _ => none

/-- The elements of a collection literal; those of a map are the values of its entries. -/
def elements (g : Graph) (n : NodeId) : List NodeId :=
  if g.kind n = .expr .mapLit then (g.items n).filterMap fun e => g.child? e .value else g.items n

/-- The union of what elements were shown to yield onto `sofar`; nothing while one of them was
shown to yield nothing. -/
def joinElements (t : BoundsTable) : TypeSet → List NodeId → Except Fault (Option TypeSet)
  | sofar, [] => .ok (some sofar)
  | sofar, e :: es =>
    if t.shown e = .empty then .ok none
    else
      match sofar.union? (t.shown e) with
      | .error cause => .error (.malformedSet cause)
      | .ok joined => joinElements t joined es

/-- A container of elements has their stem as argument, if there is one. -/
def containerOf (b : BaseType) (joined : TypeSet) : TypeSet :=
  match joined.stem? with
  | some stem => .arged b stem
  | none => .base b

/-- A collection literal waits until every element is shown to yield something. -/
def collectionRule (g : Graph) : FlowRule where
  name := "collection-literal"
  applies n := (literalContainer? (g.kind n)).isSome
  asks t n :=
    match literalContainer? (g.kind n) with
    | none => .ok []
    | some b =>
      match elements g n with
      | [] => .ok [.widen n (.base b)]
      | es => do
        match ← joinElements t .empty es with
        | none => return []
        | some joined => return [.widen n (containerOf b joined)]

/-- The object of a method is one of the class around it. -/
def selfRule (g : Graph) : FlowRule where
  name := "self"
  applies n := g.kind n = .expr .selfRef
  asks _ n :=
    match enclosing? g n .classDecl with
    | some cls => .ok [.widen n (.cls cls)]
    | none => .ok []

/-! ## Calls -/

/-- Widen a node by what it was found to yield, if that is anything. -/
def yieldIfAny (n : NodeId) (types : TypeSet) : List Request :=
  if types = .empty then [] else [.widen n types]

/-- What a method call yields; nothing while its receiver or its methods yield nothing. A method
that no class of the receiver has may yield everything. -/
def methodResult (g : Graph) (t : BoundsTable) (n : NodeId) : Except Fault TypeSet := do
  let name ← g.requireName n
  let target ← g.requireChild n .receiver
  match receiver t target with
  | .pending => return .empty
  | .dynamic => return .univ
  | .classes decls =>
    match decls.filterMap fun c => member? g c .function name with
    | [] => return .univ
    | methods =>
      let results ← methods.mapM (calleeResult g t)
      joinOnto .empty results

/-- What a call of any kind yields. -/
def callResult (g : Graph) (t : BoundsTable) (n : NodeId) : Except Fault TypeSet :=
  match g.kind n with
  | .expr .call => do calleeResult g t (← g.requireChild n .ref)
  | .expr .objectInit => do return .cls (← g.requireChild n .ref)
  | .expr .methodCall => methodResult g t n
  | _ => .ok .univ

/-- Calls of every kind. -/
def isCall : NodeKind → Bool
  | .expr .sysCall | .expr .dynCall | .expr .call | .expr .objectInit | .expr .methodCall => true
  | _ => false

/-- A call yields what its function returns, and one into untyped code may yield everything. -/
def callResultRule (g : Graph) : FlowRule where
  name := "call-result"
  applies n := isCall (g.kind n)
  asks t n := do
    let result ← callResult g t n
    return yieldIfAny n result

/-- Let an argument flow into a place; nothing shown is nothing to flow. -/
def feed (t : BoundsTable) (place arg : NodeId) : List Request := yieldIfAny place (t.shown arg)

/-- Let an argument flow into a place, and what the place permits flow back. -/
def bindArg (t : BoundsTable) (place arg : NodeId) : List Request :=
  feed t place arg ++ [.narrow arg (t.permitted place)]

/-- Pair places with arguments by position, as far as both go. -/
def pairArgs (step : NodeId → NodeId → List Request) (places args : List NodeId) : List Request :=
  (places.zip args).flatMap fun p => step p.1 p.2

/-- What a call binds its arguments to. -/
inductive Binding where
  /-- Nothing is known yet. -/
  | pending
  /-- A method of this name of any class. -/
  | anyMethod (name : String)
  /-- Lists of places, each of which takes all arguments. -/
  | places (lists : List (List NodeId))
  deriving DecidableEq, Repr

/-- The parameters of the function, the fields of the class, or the parameters of the methods that
a call may reach. -/
def callBinding (g : Graph) (t : BoundsTable) (n : NodeId) : Except Fault Binding :=
  match g.kind n with
  | .expr .call => do return .places [members g (← g.requireChild n .ref) .param]
  | .expr .objectInit => do return .places [members g (← g.requireChild n .ref) .field]
  | _ => do
    let name ← g.requireName n
    let target ← g.requireChild n .receiver
    match receiver t target with
    | .pending => return .pending
    | .dynamic => return .anyMethod name
    | .classes decls =>
      return .places <| (decls.filterMap fun c => member? g c .function name).map
        fun m => members g m .param

/-- Whether a call binds arguments to places of the program. -/
def bindsArgs (g : Graph) (n : NodeId) : Bool :=
  match g.kind n with
  | .expr .call => (g.child? n .ref).any fun f => g.kind f = .decl .function
  | .expr .objectInit | .expr .methodCall => true
  | _ => false

/-- Arguments flow into the places that they are bound to, and these narrow the arguments. A
receiver of unknown class may reach any method of the name; its parameters then narrow nothing. -/
def callArgsRule (g : Graph) (methods : List NodeId) : FlowRule where
  name := "call-args"
  applies n := bindsArgs g n
  asks t n := do
    match ← callBinding g t n with
    | .pending => return []
    | .anyMethod name =>
      return (methodsNamed g methods name).flatMap fun m =>
        pairArgs (feed t) (members g m .param) (g.items n)
    | .places lists => return lists.flatMap fun places => pairArgs (bindArg t) places (g.items n)

/-! ## Operators -/

/-- The base types at the heads of the leaves of a set. -/
def heads (types : TypeSet) : List BaseType := types.leaves.filterMap TypeSet.head?

/-- What a binary operator yields on operands that yield anything. -/
def binaryResult (op : BinaryOp) (left right : TypeSet) : TypeSet :=
  if left = .univ ∨ right = .univ then op.domain
  else
    .ofLeaves <| (heads left).flatMap fun a =>
      (heads right).filterMap fun b => (op.result? a b).map TypeSet.base

/-- A binary operator yields nothing until both operands do. -/
def binaryRule (g : Graph) : FlowRule where
  name := "binary-op"
  applies n := match g.kind n with | .expr (.binary _) => true | _ => false
  asks t n :=
    match g.kind n with
    | .expr (.binary op) => do
      let left := t.shown (← g.requireChild n .left)
      let right := t.shown (← g.requireChild n .right)
      if left = .empty ∨ right = .empty then return []
      else return yieldIfAny n (binaryResult op left right)
    | _ => .ok []

/-- What a unary operator yields. -/
def unaryResult (op : UnaryOp) (operand : TypeSet) : TypeSet :=
  if operand = .univ then op.domain
  else .ofLeaves <| ((heads operand).filterMap op.result?).map TypeSet.base

/-- A unary operator yields what its table has for its operand. -/
def unaryRule (g : Graph) : FlowRule where
  name := "unary-op"
  applies n := match g.kind n with | .expr (.unary _) => true | _ => false
  asks t n :=
    match g.kind n with
    | .expr (.unary op) => do
      let operand := t.shown (← g.requireChild n .operand)
      return yieldIfAny n (unaryResult op operand)
    | _ => .ok []

/-- Whether a set holds something with a length. -/
def isMeasurable (types : TypeSet) : Bool :=
  types = .univ || (heads types).any fun b => b.length?.isSome

/-- A length is a whole number, once the operand is shown to have one. -/
def lenRule (g : Graph) : FlowRule where
  name := "len"
  applies n := g.kind n = .expr .len
  asks t n := do
    let operand := t.shown (← g.requireChild n .operand)
    if isMeasurable operand then return [.widen n (.base .int)] else return []

/-! ## Parts -/

/-- What indexing a leaf yields: the argument of a container, everything for a bare one, and a
string for a string. -/
def elementOf? : TypeSet → Option TypeSet
  | .arged b arg => if b.isContainer then some arg else none
  | .base b =>
    if b.isContainer then some .univ
    else if b = .string then some (.base .string)
    else none
  | _ => none

/-- Indexing yields what the container holds; of everything, it may yield everything. -/
def indexRule (g : Graph) : FlowRule where
  name := "index"
  applies n := g.kind n = .expr .index
  asks t n := do
    let container := t.shown (← g.requireChild n .value)
    if container = .univ then return [.widen n .univ]
    else
      match ← join? (container.leaves.filterMap elementOf?) with
      | some types => return [.widen n types]
      | none => return []

/-- What reading a field yields; nothing while the receiver or the fields yield nothing. A field
that no class of the receiver has may yield everything. -/
def fieldResult (g : Graph) (t : BoundsTable) (n : NodeId) : Except Fault (Option TypeSet) := do
  let name ← g.requireName n
  let target ← g.requireChild n .receiver
  match receiver t target with
  | .pending => return none
  | .dynamic => return some .univ
  | .classes decls =>
    match decls.filterMap fun c => member? g c .field name with
    | [] => return some .univ
    | fields => join? (fields.map t.shown)

/-- Reading a field of anything but `self`. -/
def fieldGetRule (g : Graph) : FlowRule where
  name := "field-get"
  applies n := g.kind n = .expr .fieldGet && !g.hasChild n .ref
  asks t n := do
    match ← fieldResult g t n with
    | some types => return [.widen n types]
    | none => return []

/-! ## Bindings -/

/-- The fields that a write through a receiver reaches. -/
def writtenFields (g : Graph) (t : BoundsTable) (target : NodeId) : Except Fault (List NodeId) :=
  if g.kind target = .expr .fieldGet ∧ !g.hasChild target .ref then do
    let name ← g.requireName target
    let base ← g.requireChild target .receiver
    match receiver t base with
    | .classes decls => return decls.filterMap fun c => member? g c .field name
    | _ => return []
  else .ok []

/-- A place can hold what the value assigned to it yields; a write to a field of an object reaches
the field of its class. -/
def assignRule (g : Graph) : FlowRule where
  name := "assign-pos"
  applies n := (assignment? g n).isSome
  asks t n :=
    match assignment? g n with
    | none => .ok []
    | some (target, value) =>
      let shown := t.shown value
      if shown = .empty then .ok []
      else do
        let fields ← writtenFields g t target
        return (target :: fields).map fun place => .widen place shown

/-- A returned value flows into the slot of its function. -/
def returnRule (g : Graph) : FlowRule where
  name := "return"
  applies n := (returned? g n).isSome
  asks t n :=
    match returned? g n with
    | none => .ok []
    | some (slot, value) => .ok (yieldIfAny slot (t.shown value))

end Flow

end TypeFlow
