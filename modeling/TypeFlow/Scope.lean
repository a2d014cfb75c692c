import TypeFlow.Graph.Search
/-!
# Scopes

A scope table lists the names that a program, a class or a function defines, in the order of
their declaration, and names the host around it. A name is looked up in the nearest table first
and then outwards (`Scopes.lookupFrom`).
-/

namespace TypeFlow

/-- Names and the nodes that define them, in the order of declaration. -/
abbrev Definitions := List (String × NodeId)

/-- Add a definition behind the others, unless its name is taken. -/
def Definitions.declare (defs : Definitions) (name : String) (node : NodeId) : Definitions :=
  if (defs.lookup name).isSome then defs else defs ++ [(name, node)]

/-- The names defined directly in a host. -/
structure ScopeTable where
  defs : Definitions
  /-- The host around this one. -/
  parent? : Option NodeId
  deriving DecidableEq, Repr

namespace ScopeTable

/-- The definition of a name in this table alone. -/
def get? (t : ScopeTable) (name : String) : Option NodeId := t.defs.lookup name

/-- Define a name here, unless it is taken. -/
def declare (t : ScopeTable) (name : String) (node : NodeId) : ScopeTable :=
  { t with defs := t.defs.declare name node }

end ScopeTable

/-- The tables of a program, with its functions and its classes. -/
structure Scopes where
  tables : List (NodeId × ScopeTable)
  functions : Definitions
  classes : Definitions
  deriving DecidableEq, Repr

namespace Scopes

/-- No tables yet. -/
def empty : Scopes := ⟨[], [], []⟩

/-- The table of a host. -/
def table? (s : Scopes) (host : NodeId) : Option ScopeTable := s.tables.lookup host

/-- Give a host its table, in place of an earlier one. -/
def setTable (s : Scopes) (host : NodeId) (t : ScopeTable) : Scopes :=
  { s with tables := s.tables.filter (·.1 ≠ host) ++ [(host, t)] }

/-- The function of a name. -/
def function? (s : Scopes) (name : String) : Option NodeId := s.functions.lookup name

/-- The class of a name. -/
def class? (s : Scopes) (name : String) : Option NodeId := s.classes.lookup name

/-- The number of definitions in all tables. -/
def definitions (s : Scopes) : Nat :=
  s.tables.foldr (fun t count => t.2.defs.length + count) 0

/-- Look a name up in the table of a host and then outwards, over at most so many tables. -/
def lookupOver (s : Scopes) (name : String) : Nat → Option NodeId → Option NodeId
  | 0, _ => none
  | _ + 1, none => none
  | hops + 1, some host =>
    match s.table? host with
    | none => none
    | some t =>
      match t.get? name with
      | some node => some node
      | none => s.lookupOver name hops t.parent?

/-- Look a name up in the table of a host and then outwards. No way out is longer than the number
of tables. -/
def lookupFrom (s : Scopes) (host : NodeId) (name : String) : Option NodeId :=
  s.lookupOver name s.tables.length (some host)

/-- Look a variable up as it is seen from a node. -/
def lookup? (s : Scopes) (g : Graph) (site : NodeId) (name : String) : Option NodeId :=
  match g.nearestAncestor? site fun n => (g.kind n).isScopeHost with
  | none => none
  | some host => s.lookupFrom host name

end Scopes

end TypeFlow
