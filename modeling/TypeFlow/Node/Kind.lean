import TypeFlow.BaseType
import TypeFlow.Operator
/-!
# Node kinds

What a node of a program graph is: a statement, an expression, a declaration, a type annotation,
or a surface form that the parser produces and lowering removes.
-/

namespace TypeFlow

/-- Statements. -/
inductive StmtKind where
  | block
  | varInit
  | assign
  | ret
  | branch
  | whileLoop
  | endlessLoop
  | leaveLoop
  | nextRound
  | exprStmt
  deriving DecidableEq, Repr, Inhabited

/-- Expressions. -/
inductive ExprKind where
  | intLit
  | floatLit
  | strLit
  | boolLit
  | listLit
  | setLit
  | mapLit
  | mapEntry
  | ident
  | selfRef
  | binary (op : BinaryOp)
  | unary (op : UnaryOp)
  | len
  | index
  /-- A call by name. -/
  | call
  /-- A call into the runtime. -/
  | sysCall
  /-- A call through a variable. -/
  | dynCall
  | methodCall
  | objectInit
  | fieldGet
  deriving DecidableEq, Repr, Inhabited

/-- Declarations, and the nodes that passes add to them. -/
inductive DeclKind where
  | program
  | function
  | classDecl
  | param
  | field
  | varDef
  /-- The holder of the implicit locals of a function. -/
  | scope
  /-- The place where the values that a function returns are gathered. -/
  | returnSlot
  deriving DecidableEq, Repr, Inhabited

/-- Type annotations, written or inferred. -/
inductive TypeKind where
  | base (b : BaseType)
  /-- A container with one argument, both held as children. -/
  | generic
  /-- A type referred to by name. -/
  | named
  | dynamic
  | void
  deriving DecidableEq, Repr, Inhabited

/-- Surface forms; none is left after lowering. -/
inductive SurfaceKind where
  | operatorSeq
  | opToken
  | dotPipe
  | dotted
  | kwArg
  | forIn
  deriving DecidableEq, Repr, Inhabited

/-- What a node is. -/
inductive NodeKind where
  | stmt (k : StmtKind)
  | expr (k : ExprKind)
  | decl (k : DeclKind)
  | type (k : TypeKind)
  | surface (k : SurfaceKind)
  deriving DecidableEq, Repr

/-- The five families of kinds. -/
inductive Category where
  | statement
  | expression
  | declaration
  | type
  | surface
  deriving DecidableEq, Repr

/-- The name of a statement kind in messages. -/
def StmtKind.text : StmtKind → String
  | .block => "Block"
  | .varInit => "VarInit"
  | .assign => "Assign"
  | .ret => "Return"
  | .branch => "If"
  | .whileLoop => "While"
  | .endlessLoop => "Loop"
  | .leaveLoop => "Break"
  | .nextRound => "Continue"
  | .exprStmt => "ExprStmt"

/-- The name of an expression kind in messages. -/
def ExprKind.text : ExprKind → String
  | .intLit => "IntLit"
  | .floatLit => "FloatLit"
  | .strLit => "StrLit"
  | .boolLit => "BoolLit"
  | .listLit => "ListLit"
  | .setLit => "SetLit"
  | .mapLit => "MapLit"
  | .mapEntry => "MapEntry"
  | .ident => "Ident"
  | .selfRef => "SelfRef"
  | .binary op => s!"Binary({op.token})"
  | .unary op => s!"Unary({op.token})"
  | .len => "Len"
  | .index => "Index"
  | .call => "Call"
  | .sysCall => "SysCall"
  | .dynCall => "DynCall"
  | .methodCall => "MethodCall"
  | .objectInit => "ObjectInit"
  | .fieldGet => "FieldGet"

/-- The name of a declaration kind in messages. -/
def DeclKind.text : DeclKind → String
  | .program => "Program"
  | .function => "Function"
  | .classDecl => "Class"
  | .param => "Param"
  | .field => "Field"
  | .varDef => "VarDef"
  | .scope => "Scope"
  | .returnSlot => "ReturnSlot"

/-- The name of a type kind in messages. -/
def TypeKind.text : TypeKind → String
  | .base b => s!"Type({b.name})"
  | .generic => "Type(Generic)"
  | .named => "Type(Named)"
  | .dynamic => "Type(Dynamic)"
  | .void => "Type(Void)"

/-- The name of a surface form in messages. -/
def SurfaceKind.text : SurfaceKind → String
  | .operatorSeq => "OperatorSeq"
  | .opToken => "OpToken"
  | .dotPipe => "DotPipe"
  | .dotted => "Dotted"
  | .kwArg => "KwArg"
  | .forIn => "ForIn"

namespace NodeKind

instance : Inhabited NodeKind := ⟨.stmt .block⟩

/-- The name of a kind in messages. -/
def text : NodeKind → String
  | .stmt k => k.text
  | .expr k => k.text
  | .decl k => k.text
  | .type k => k.text
  | .surface k => k.text

instance : ToString NodeKind := ⟨text⟩

/-- The family of a kind. -/
def category : NodeKind → Category
  | .stmt _ => .statement
  | .expr _ => .expression
  | .decl _ => .declaration
  | .type _ => .type
  | .surface _ => .surface

/-- Whether inference gives bounds to nodes of this kind: every expression but the entry of a
map, and the declarations that hold values. -/
def isTypable : NodeKind → Bool
  | .expr .mapEntry => false
  | .expr _ => true
  | .decl .param | .decl .field | .decl .varDef | .decl .returnSlot => true
  | _ => false

/-- Whether nodes of this kind have a table of definitions. -/
def isScopeHost : NodeKind → Bool
  | .decl .program | .decl .function | .decl .classDecl => true
  | _ => false

/-- Whether lowering has to remove nodes of this kind. -/
def isSurface : NodeKind → Bool
  | .surface _ => true
  | _ => false

end NodeKind

end TypeFlow
