import TypeFlow.Graph.Build
/-!
# Parsed programs

Constructors for the graphs that a parser hands over. Operator sequences, dotted chains, pipes,
keyword arguments and `for` loops are left as surface forms. The root is node 0; each constructor
adds its own node before it links it to its parts, which exist already.
-/

namespace TypeFlow

namespace Program

open Build

/-- The program without declarations. -/
def empty : Graph := Graph.empty.add (.decl .program) .none

/-- The root of every program. -/
def root : NodeId := ⟨0⟩

/-! ## Declarations -/

/-- A function with an empty body, hung below `host`. -/
def functionIn (host : NodeId) (name : String) : Build NodeId := do
  let f ← addNode (.decl .function) (.str name)
  let body ← addNode (.stmt .block) .none
  setChild f .body body
  pushItem host f
  return f

/-- A function of the program. -/
def function (name : String) : Build NodeId := functionIn root name

/-- A class without members. -/
def classDecl (name : String) : Build NodeId := do
  let c ← addNode (.decl .classDecl) (.str name)
  pushItem root c
  return c

/-- A function that a class holds. -/
def method (cls : NodeId) (name : String) : Build NodeId := functionIn cls name

/-- A field of a class, with its declared type and its default, if any. -/
def field (cls : NodeId) (name : String) (type? default? : Option NodeId) : Build NodeId := do
  let f ← addNode (.decl .field) (.str name)
  setChild? f .declaredType type?
  setChild? f .value default?
  pushItem cls f
  return f

/-- The next parameter of a function. -/
def param (func : NodeId) (name : String) (type? : Option NodeId) : Build NodeId := do
  let p ← addNode (.decl .param) (.str name)
  setChild? p .declaredType type?
  pushItem func p
  return p

/-- Declare what a function returns. -/
def returnType (func type : NodeId) : Build Unit := setChild func .returnType type

/-! ## Type annotations -/

def baseType (b : BaseType) : Build NodeId := addNode (.type (.base b)) .none

/-- A container type with its argument. -/
def genericType (b : BaseType) (arg : NodeId) : Build NodeId := do
  let base ← baseType b
  let t ← addNode (.type .generic) .none
  setChild t .base base
  setChild t .arg arg
  return t

def namedType (name : String) : Build NodeId := addNode (.type .named) (.str name)

def dynamicType : Build NodeId := addNode (.type .dynamic) .none

/-! ## Expressions -/

def int (value : Int64) : Build NodeId := addNode (.expr .intLit) (.int value)

def float (value : Double) : Build NodeId := addNode (.expr .floatLit) (.float value)

def string (value : String) : Build NodeId := addNode (.expr .strLit) (.str value)

def boolean (value : Bool) : Build NodeId := addNode (.expr .boolLit) (.bool value)

def ident (name : String) : Build NodeId := addNode (.expr .ident) (.str name)

def selfRef : Build NodeId := addNode (.expr .selfRef) .none

/-- A node that holds a list of items. -/
def sequence (kind : NodeKind) (payload : Payload) (items : List NodeId) : Build NodeId := do
  let n ← addNode kind payload
  pushItems n items
  return n

def list (items : List NodeId) : Build NodeId := sequence (.expr .listLit) .none items

def set (items : List NodeId) : Build NodeId := sequence (.expr .setLit) .none items

/-- A map literal of keys and values. -/
def map (entries : List (NodeId × NodeId)) : Build NodeId := do
  let m ← addNode (.expr .mapLit) .none
  entries.forM fun (key, value) => do
    let e ← addNode (.expr .mapEntry) .none
    setChild e .key key
    setChild e .value value
    pushItem m e
  return m

/-- A binary operator on two operands. -/
def binary (op : BinaryOp) (left right : NodeId) : Build NodeId := do
  let n ← addNode (.expr (.binary op)) .none
  setChild n .left left
  setChild n .right right
  return n

/-- A unary operator on an operand. -/
def unary (op : UnaryOp) (operand : NodeId) : Build NodeId := do
  let n ← addNode (.expr (.unary op)) .none
  setChild n .operand operand
  return n

/-- Operands and operator tokens in the order of writing. -/
def operatorSeq (first : NodeId) (rest : List (String × NodeId)) : Build NodeId := do
  let s ← addNode (.surface .operatorSeq) .none
  pushItem s first
  rest.forM fun (token, operand) => do
    let t ← addNode (.surface .opToken) (.str token)
    pushItem s t
    pushItem s operand
  return s

/-- The length of an operand. -/
def len (operand : NodeId) : Build NodeId := do
  let n ← addNode (.expr .len) .none
  setChild n .operand operand
  return n

/-- An element of a container. -/
def index (container key : NodeId) : Build NodeId := do
  let n ← addNode (.expr .index) .none
  setChild n .value container
  setChild n .key key
  return n

/-- A call by name. -/
def call (name : String) (args : List NodeId) : Build NodeId :=
  sequence (.expr .call) (.str name) args

/-- A keyword argument, to be put among the arguments of a call. -/
def kwArg (name : String) (value : NodeId) : Build NodeId := do
  let n ← addNode (.surface .kwArg) (.str name)
  setChild n .value value
  return n

/-- A field of a receiver. -/
def fieldGet (receiver : NodeId) (name : String) : Build NodeId := do
  let n ← addNode (.expr .fieldGet) (.str name)
  setChild n .receiver receiver
  return n

/-- A call of a method of a receiver. -/
def methodCall (receiver : NodeId) (name : String) (args : List NodeId) : Build NodeId := do
  let n ← addNode (.expr .methodCall) (.str name)
  setChild n .receiver receiver
  pushItems n args
  return n

/-- A base and the identifiers and calls that follow it, each after a dot. -/
def dotted (base : NodeId) (segments : List NodeId) : Build NodeId :=
  sequence (.surface .dotted) .none (base :: segments)

/-- A value and the calls that it is handed through. -/
def dotPipe (head : NodeId) (calls : List NodeId) : Build NodeId :=
  sequence (.surface .dotPipe) .none (head :: calls)

/-! ## Statements, at the end of a block -/

/-- A new variable with its first value. -/
def varInit (block : NodeId) (name : String) (type? : Option NodeId) (value : NodeId) :
    Build NodeId := do
  let s ← addNode (.stmt .varInit) .none
  let target ← ident name
  setChild s .target target
  setChild? s .declaredType type?
  setChild s .value value
  pushItem block s
  return s

/-- An assignment at the end of a block. -/
def assign (block target value : NodeId) : Build NodeId := do
  let s ← addNode (.stmt .assign) .none
  setChild s .target target
  setChild s .value value
  pushItem block s
  return s

/-- A return at the end of a block, with its value, if any. -/
def ret (block : NodeId) (value? : Option NodeId) : Build NodeId := do
  let s ← addNode (.stmt .ret) .none
  setChild? s .value value?
  pushItem block s
  return s

/-- An expression whose value is dropped, at the end of a block. -/
def exprStmt (block expr : NodeId) : Build NodeId := do
  let s ← addNode (.stmt .exprStmt) .none
  setChild s .value expr
  pushItem block s
  return s

/-- A branch; the answer is its two blocks. -/
def branch (block cond : NodeId) : Build (NodeId × NodeId) := do
  let s ← addNode (.stmt .branch) .none
  let thenBlock ← addNode (.stmt .block) .none
  let elseBlock ← addNode (.stmt .block) .none
  setChild s .cond cond
  setChild s .body thenBlock
  setChild s .otherwise elseBlock
  pushItem block s
  return (thenBlock, elseBlock)

/-- A loop under a condition; the answer is its body. -/
def whileLoop (block cond : NodeId) : Build NodeId := do
  let s ← addNode (.stmt .whileLoop) .none
  let body ← addNode (.stmt .block) .none
  setChild s .cond cond
  setChild s .body body
  pushItem block s
  return body

/-- A loop without a condition; the answer is its body. -/
def endlessLoop (block : NodeId) : Build NodeId := do
  let s ← addNode (.stmt .endlessLoop) .none
  let body ← addNode (.stmt .block) .none
  setChild s .body body
  pushItem block s
  return body

/-- A loop over the members of a container; the answer is its body. -/
def forIn (block : NodeId) (var : String) (iter : NodeId) : Build NodeId := do
  let s ← addNode (.surface .forIn) (.str var)
  let body ← addNode (.stmt .block) .none
  setChild s .iter iter
  setChild s .body body
  pushItem block s
  return body

/-- A jump out of the loop, at the end of a block. -/
def leaveLoop (block : NodeId) : Build NodeId := do
  let s ← addNode (.stmt .leaveLoop) .none
  pushItem block s
  return s

/-- A jump to the next round of the loop, at the end of a block. -/
def nextRound (block : NodeId) : Build NodeId := do
  let s ← addNode (.stmt .nextRound) .none
  pushItem block s
  return s

end Program

end TypeFlow
