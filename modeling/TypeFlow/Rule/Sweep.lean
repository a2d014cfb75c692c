import TypeFlow.Rule
/-!
# Sweeps

A sweep runs each rule once, in order, over the nodes below a root to which it applies when its
turn comes. The nodes are fixed before its first firing, and each is tested again before the rule
fires there.
-/

namespace TypeFlow

namespace Rule

/-- Fire a rule at each node of a list where it still can, and count the firings. -/
def sweepNodes (r : GraphRule) : List NodeId → Run Graph Nat
  | [] => return 0
  | n :: ns => do
    let fired ← r.tryAt Graph.commit n
    let more ← r.sweepNodes ns
    return more + fired.toNat

/-- Run each rule once over what lies below a root, and count the firings. -/
def sweep (root : NodeId) : List GraphRule → Run Graph Nat
  | [] => return 0
  | r :: rs => do
    let g ← get
    let fired ← r.sweepNodes (g.reachable root (r.applies g))
    let more ← sweep root rs
    return fired + more

end Rule

end TypeFlow
