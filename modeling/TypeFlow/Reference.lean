import TypeFlow.Rule.Fixpoint
import TypeFlow.Scope.Builtin
import TypeFlow.Scope.Collect
/-!
# References

Every identifier, every field read on `self`, every call and every named type is tied to its
definition by an edge with the role `ref`. Calls change kind on the way: into the runtime, through
a variable, of a function, or of a class. Identifiers and fields without a definition stop the
rules; calls and named types are looked over once the rules are quiet.
-/

namespace TypeFlow

namespace Reference

/-- Whether a node is of a kind and not tied yet. -/
def isLoose (g : Graph) (n : NodeId) (kind : NodeKind) : Bool :=
  g.kind n = kind && !g.hasChild n .ref

/-- Tie a node to its definition. -/
def tie (n definition : NodeId) : Draft Unit := Draft.setChild n .ref definition

/-- An identifier stands for the nearest variable of its name, or else for a function. -/
def identRule (s : Scopes) : GraphRule where
  name := "resolve-ident"
  applies g n := isLoose g n (.expr .ident)
  effect g n := do
    let name ← g.requireName n
    match (s.lookup? g n name).or (s.function? name) with
    | some d => .ok (some (Draft.patch (tie n d)))
    | none => .error (.unknownIdentifier name n)

/-- The field of a name in the nearest class around a node. -/
def ownField? (s : Scopes) (g : Graph) (n : NodeId) (name : String) : Option NodeId := do
  let cls ← g.nearestAncestor? n fun m => g.kind m = .decl .classDecl
  let table ← s.table? cls
  table.get? name

/-- A field read on `self` stands for the field of the class around it. -/
def selfFieldRule (s : Scopes) : GraphRule where
  name := "resolve-self-field"
  applies g n :=
    isLoose g n (.expr .fieldGet) && (g.child? n .receiver).any fun r => g.kind r = .expr .selfRef
  effect g n := do
    let name ← g.requireName n
    match ownField? s g n name with
    | some d => .ok (some (Draft.patch (tie n d)))
    | none => .error (.unknownIdentifier s!"self.{name}" n)

/-- A call is one into the runtime, through a variable, of a function or of a class, whichever its
name stands for first. -/
def callRule (s : Scopes) : GraphRule where
  name := "resolve-call"
  applies g n := isLoose g n (.expr .call)
  effect g n := do
    let name ← g.requireName n
    if isBuiltin name then return some (Draft.patch (Draft.setKind n (.expr .sysCall)))
    else
      match s.lookup? g n name, s.function? name, s.class? name with
      | some d, _, _ =>
        return some <| Draft.patch do
          Draft.setKind n (.expr .dynCall)
          tie n d
      | none, some d, _ => return some (Draft.patch (tie n d))
      | none, none, some d =>
        return some <| Draft.patch do
          Draft.setKind n (.expr .objectInit)
          tie n d
      | none, none, none => return none

/-- A type name is that of a base type, the word `dyn`, or that of a class. -/
def namedTypeRule (s : Scopes) : GraphRule where
  name := "resolve-named-type"
  applies g n := isLoose g n (.type .named)
  effect g n := do
    let name ← g.requireName n
    match BaseType.ofName? name with
    | some b => return some (Draft.patch (Draft.setKind n (.type (.base b))))
    | none =>
      if name = "dyn" then return some (Draft.patch (Draft.setKind n (.type .dynamic)))
      else
        match s.class? name with
        | some d => return some (Draft.patch (tie n d))
        | none => return none

/-- The rules that link references, in the order of firing. -/
def rules (s : Scopes) : List GraphRule :=
  [identRule s, selfFieldRule s, callRule s, namedTypeRule s]

/-- Whether a node is a call or a named type that is not tied. -/
def isUnresolved (g : Graph) (n : NodeId) : Bool :=
  isLoose g n (.expr .call) || isLoose g n (.type .named)

/-- The first call or named type below a root that is not tied is a fault. -/
def checkResolved (g : Graph) (root : NodeId) : Except Fault Unit :=
  match g.first? (.down root) (isUnresolved g) with
  | none => .ok ()
  | some n => do
    let name ← g.requireName n
    if g.kind n = .expr .call then .error (.unknownFunction name n)
    else .error (.unknownClass name n)

/-- What a resolution found. -/
structure Report where
  definitions : Nat
  functions : Nat
  classes : Nat
  stats : Stats
  deriving DecidableEq, Repr

/-- Tie every reference below a root to its definition. -/
def run (root : NodeId) (ceiling : Nat) : Run Graph Report := do
  let scopes ← Scopes.collect root
  let candidates := (← get).reachable root fun _ => true
  let stats ← Rule.fixpoint Graph.commit (rules scopes) candidates ceiling
  Run.ofExcept (checkResolved (← get) root)
  return ⟨scopes.definitions, scopes.functions.length, scopes.classes.length, stats⟩

end Reference

end TypeFlow
