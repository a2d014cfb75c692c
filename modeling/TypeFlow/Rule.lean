import TypeFlow.Graph.Search
import TypeFlow.Graph.Patch
/-!
# Rules

A rule reads a state and describes its effect at a node as a patch; a commit function puts patches
into the state. A rule has no other way to change the state, so what it does at a node depends on
the state that it is given alone (`Rule.fire?`).
-/

namespace TypeFlow

/-- A condition on the nodes of a state and what to do where it holds. -/
structure Rule (σ π : Type) where
  name : String
  applies : σ → NodeId → Bool
  /-- The effect at a node; nothing if there turns out to be nothing to do. -/
  effect : σ → NodeId → Except Fault (Option π)

/-- How patches enter a state. -/
abbrev Commit (σ π : Type) := π → Run σ Unit

/-- Graph patches are applied; the nodes that they create are found through the graph. -/
def Graph.commit : Commit Graph Patch := fun p => do
  let _ ← Graph.apply p
  return ()

/-- A rule that edits the graph. -/
abbrev GraphRule := Rule Graph Patch

namespace Rule

variable {σ π : Type}

/-- The patch of a rule at a node, if the rule applies and finds something to do. -/
def fire? (r : Rule σ π) (s : σ) (n : NodeId) : Except Fault (Option π) :=
  if r.applies s n then r.effect s n else .ok none

/-- Fire a rule at a node if it can fire there, and tell whether it did. -/
def tryAt (commit : Commit σ π) (r : Rule σ π) (n : NodeId) : Run σ Bool := do
  match r.fire? (← get) n with
  | .error fault => throw fault
  | .ok none => return false
  | .ok (some p) =>
    commit p
    return true

end Rule

end TypeFlow
