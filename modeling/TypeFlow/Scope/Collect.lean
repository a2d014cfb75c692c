import TypeFlow.Graph.Build
import TypeFlow.Scope
/-!
# Collecting scopes

Every class defines its fields. Every function defines its parameters and one local for each name
that its body writes and that neither it nor a host around it defines: the first write declares.
Such locals become nodes of the graph, held by a scope node below the function.
-/

namespace TypeFlow

namespace Scopes

/-- The nodes of one kind in a list, with their names. Each must have one. -/
def namedMembers (g : Graph) (kind : DeclKind) (members : List NodeId) : Except Fault Definitions :=
  (members.filter fun m => g.kind m = .decl kind).mapM fun m => do
    let name ← g.requireName m
    return (name, m)

/-- A table of definitions, the first of a name counting. -/
def tableOf (parent : NodeId) (defs : Definitions) : ScopeTable :=
  defs.foldl (fun t d => t.declare d.1 d.2) ⟨[], some parent⟩

/-- Statements whose target is a variable that they may declare. -/
def isWrite : NodeKind → Bool
  | .stmt .varInit | .stmt .assign => true
  | _ => false

/-- The name that a statement writes, if its target is an identifier. -/
def writtenName? (g : Graph) (stmt : NodeId) : Option String :=
  match g.child? stmt .target with
  | none => none
  | some target => if g.kind target = .expr .ident then g.name? target else none

/-- The names that a body writes, in the order of a search that does not enter other hosts. -/
def writtenNames (g : Graph) (body : NodeId) : List String :=
  let search := { Search.down body with prune := fun n => (g.kind n).isScopeHost }
  (g.collect search fun n => isWrite (g.kind n)).filterMap (writtenName? g)

/-- The names that are not taken, each once. -/
def newNames (taken : String → Bool) : List String → List String
  | [] => []
  | x :: xs =>
    if taken x then newNames taken xs else x :: newNames (fun y => y = x || taken y) xs

/-- Add a definition of a local to a scope node. -/
def addLocal (scope : NodeId) (name : String) : Build (String × NodeId) := do
  let node ← Build.addNode (.decl .varDef) (.str name)
  Build.pushItem scope node
  return (name, node)

/-- Add definitions of locals below a function; without any, it gets no scope node. -/
def addLocals (func : NodeId) : List String → Build Definitions
  | [] => return []
  | names => do
    let scope ← Build.addNode (.decl .scope) .none
    Build.setChild func .locals scope
    names.mapM (addLocal scope)

/-- Collect the table of a function. -/
def collectFunction (s : Scopes) (func parent : NodeId) : Run Graph Scopes := do
  let g ← get
  let params ← Run.ofExcept (namedMembers g .param (g.items func))
  let body ← Run.ofExcept (g.requireChild func .body)
  let table := tableOf parent params
  let taken name := (table.get? name).isSome || (s.lookupFrom parent name).isSome
  let locals ← addLocals func (newNames taken (writtenNames g body))
  return s.setTable func { table with defs := table.defs ++ locals }

/-- Collect the tables of the functions in a list. -/
def collectFunctions (parent : NodeId) : Scopes → List NodeId → Run Graph Scopes
  | s, [] => return s
  | s, m :: ms => do
    if (← get).kind m = .decl .function then
      let s ← s.collectFunction m parent
      collectFunctions parent s ms
    else collectFunctions parent s ms

/-- Collect the tables of a class and of its methods. -/
def collectClass (s : Scopes) (cls parent : NodeId) : Run Graph Scopes := do
  let g ← get
  let fields ← Run.ofExcept (namedMembers g .field (g.items cls))
  collectFunctions cls (s.setTable cls (tableOf parent fields)) (g.items cls)

/-- Collect what a declaration of the program defines. -/
def collectItem (root : NodeId) (s : Scopes) (item : NodeId) : Run Graph Scopes := do
  let g ← get
  match g.kind item with
  | .decl .function => do
    let name ← Run.ofExcept (g.requireName item)
    collectFunction { s with functions := s.functions.declare name item } item root
  | .decl .classDecl => do
    let name ← Run.ofExcept (g.requireName item)
    collectClass { s with classes := s.classes.declare name item } item root
  | _ => return s

/-- Collect the tables of every host of a program. -/
def collect (root : NodeId) : Run Graph Scopes := do
  let items := (← get).items root
  items.foldlM (collectItem root) (empty.setTable root ⟨[], none⟩)

end Scopes

end TypeFlow
