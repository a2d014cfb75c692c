import TypeFlow.Lowering.Chain
import TypeFlow.Lowering.KeywordArgument
import TypeFlow.Lowering.Loop
import TypeFlow.Rule.Sweep
/-!
# Lowering

One sweep removes every surface form: operator sequences, pipes, dotted chains, keyword arguments
and loops over containers, in this order. No rule makes a surface form, so that each needs to
run only once. A surface form that is still in reach afterwards is a fault.
-/

namespace TypeFlow

namespace Lowering

/-- The rules of lowering, in the order of their sweep. -/
def rules : List GraphRule :=
  [foldOperators, lowerDotPipe, lowerDotted, collectKeywordArgs, lowerForIn]

/-- The first surface form that is left below a root. -/
def leftOver? (g : Graph) (root : NodeId) : Option NodeId :=
  g.first? (.down root) fun n => (g.kind n).isSurface

/-- Lower what lies below a root; the answer is the number of firings. -/
def run (root : NodeId) : Run Graph Nat := do
  let firings ← Rule.sweep root rules
  let g ← get
  match leftOver? g root with
  | some n => throw (.malformedSurface n (.leftOver (g.kind n)))
  | none => return firings

end Lowering

end TypeFlow
