import TypeFlow.Node.Kind
import TypeFlow.Node.Role
import TypeFlow.TypeSet.Check
/-!
# Faults

Everything that can stop a pass, as a cause with its data. `Fault.message` words it and
`Fault.node?` is the node at which it is anchored, if there is one.
-/

namespace TypeFlow

/-- What is wrong with a surface form. -/
inductive SurfaceFault where
  /-- An operator sequence of this many items does not end in an operand. -/
  | endsInOperator (items : Nat)
  | operatorForOperand
  | operandForOperator
  | unknownOperator (token : String)
  | emptyPipe
  | stageNotCall
  | emptyChain
  | notAfterDot (kind : NodeKind)
  /-- A surface form survives lowering. -/
  | leftOver (kind : NodeKind)
  deriving DecidableEq, Repr

/-- The wording of what is wrong, without the node. -/
def SurfaceFault.message : SurfaceFault → String
  | .endsInOperator items => s!"operator sequence of {items} items does not end in an operand"
  | .operatorForOperand => "operator found where an operand was expected"
  | .operandForOperator => "operand found where an operator was expected"
  | .unknownOperator token => s!"unknown operator `{token}`"
  | .emptyPipe => "empty dot-pipe"
  | .stageNotCall => "dot-pipe stage is not a call"
  | .emptyChain => "empty dotted chain"
  | .notAfterDot kind => s!"{kind} cannot follow a dot"
  | .leftOver kind => s!"{kind} left after desugaring"

/-- What a node was expected to carry. -/
inductive Expected where
  | name
  | baseType
  | typeNode
  deriving DecidableEq, Repr

/-- The wording of what was expected. -/
def Expected.text : Expected → String
  | .name => "name"
  | .baseType => "base type"
  | .typeNode => "type annotation"

/-- Why a pass stops. -/
inductive Fault where
  | missingChild (node : NodeId) (role : Role)
  | missingPayload (node : NodeId) (expected : Expected)
  /-- A patch names a node that it does not create. -/
  | staleHandle (index : Nat)
  | malformedSet (cause : TypeSet.Malformed)
  | malformedSurface (node : NodeId) (cause : SurfaceFault)
  | unknownIdentifier (name : String) (node : NodeId)
  | unknownFunction (name : String) (node : NodeId)
  | unknownClass (name : String) (node : NodeId)
  /-- The round ceiling is passed while a rule still fires. -/
  | diverged (rule : String) (node : NodeId) (rounds : Nat)
  /-- Nothing that a node was shown to yield is permitted. -/
  | noConsistentType (node : NodeId) (kind : NodeKind) (shown permitted : TypeSet)
  deriving DecidableEq, Repr

namespace Fault

/-- The wording of a fault; nodes are written as numbers behind a hash sign. -/
def message : Fault → String
  | .missingChild node role => s!"node {node} has no `{role}` child"
  | .missingPayload node expected => s!"node {node} carries no {expected.text} payload"
  | .staleHandle index => s!"patch handle #{index} does not name a node created by the patch"
  | .malformedSet cause => s!"lattice invariant violated: {cause.message}"
  | .malformedSurface node cause => s!"malformed syntax at {node}: {cause.message}"
  | .unknownIdentifier name node => s!"unknown identifier `{name}` at {node}"
  | .unknownFunction name node => s!"unknown function `{name}` at {node}"
  | .unknownClass name node => s!"unknown class `{name}` at {node}"
  | .diverged rule node rounds =>
    s!"rewrite did not converge after {rounds} rounds; rule `{rule}` still firing at {node}"
  | .noConsistentType node kind shown permitted =>
    s!"no consistent type for {kind} at {node}: shown capable of `{shown}`, permitted `{permitted}`"

/-- The node at which a fault is anchored. -/
def node? : Fault → Option NodeId
  | .missingChild node _ | .missingPayload node _ | .malformedSurface node _
  | .unknownIdentifier _ node | .unknownFunction _ node | .unknownClass _ node
  | .diverged _ node _ | .noConsistentType node _ _ _ => some node
  | .staleHandle _ | .malformedSet _ => none

end Fault

/-- A computation on a state that may stop with a fault. The state reached is kept when it does. -/
abbrev Run (σ : Type) := ExceptT Fault (StateM σ)

/-- Stop with the fault of an answer, or go on with its value. -/
def Run.ofExcept {σ α : Type} : Except Fault α → Run σ α
  | .ok a => pure a
  | .error fault => throw fault

end TypeFlow
