import TypeFlow.Coloring
import TypeFlow.Flow.Accept
import TypeFlow.Flow.Seed
import TypeFlow.Rule.Fixpoint
/-!
# Inference

Types of a lowered program whose references are tied: bounds are seeded from declarations, the
flow rules run until they are quiet, and every typable node is colored from its bounds.
-/

namespace TypeFlow

namespace Inference

/-- Give a function a slot for what it returns, unless it has one. -/
def addReturnSlot (func : NodeId) : Build Unit := do
  if (← get).hasChild func .returnSlot then return ()
  else do
    let slot ← Build.addNode (.decl .returnSlot) .none
    Build.setChild func .returnSlot slot

/-- Give every function below a root a slot for what it returns. -/
def addReturnSlots (root : NodeId) : Build Unit := do
  let g ← get
  (g.reachable root fun n => g.kind n = .decl .function).forM addReturnSlot

/-- The typable nodes below a root. -/
def typable (g : Graph) (root : NodeId) : List NodeId :=
  g.reachable root fun n => (g.kind n).isTypable

/-- The bounds that declarations give to the nodes below a root. -/
def seeded (g : Graph) (root : NodeId) (allowUntyped : Bool) : Except Fault BoundsTable := do
  let nodes := typable g root
  let t := Flow.bindAll g nodes
  let requests ← Flow.seedRequests g root allowUntyped nodes
  match (Update.ofRequests t requests).apply.run t with
  | (.ok _, t) => return t
  | (.error fault, _) => throw fault

/-- Run the flow rules on seeded bounds until they are quiet. -/
def settled (g : Graph) (root : NodeId) (ceiling : Nat) (t : BoundsTable) :
    Except Fault (Stats × BoundsTable) :=
  let rules := (Flow.rules g (Flow.classMethods g root)).map FlowRule.toRule
  match (Rule.fixpoint Flow.commit rules (g.reachable root fun _ => true) ceiling).run t with
  | (.ok stats, t) => .ok (stats, t)
  | (.error fault, _) => .error fault

/-- What an inference found. -/
structure Report where
  stats : Stats
  /-- The number of slots. -/
  slots : Nat
  colors : ColorStats
  deriving DecidableEq, Repr

/-- Infer and color every typable node below a root. -/
def run (root : NodeId) (ceiling : Nat) (allowUntyped : Bool) : Run Graph Report := do
  addReturnSlots root
  let g ← get
  let seeds ← Run.ofExcept (seeded g root allowUntyped)
  let (stats, t) ← Run.ofExcept (settled g root ceiling seeds)
  let colors ← Graph.colorAll t (typable g root)
  return ⟨stats, t.size, colors⟩

end Inference

end TypeFlow
