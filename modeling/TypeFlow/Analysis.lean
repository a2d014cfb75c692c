import TypeFlow.Inference
import TypeFlow.Lowering
import TypeFlow.Reference
import TypeFlow.Settings
/-!
# Analysis of a program

The passes in order: surface forms are lowered, references are tied to their definitions, and types
are inferred. The first fault stops the analysis.
-/

namespace TypeFlow

namespace Analysis

/-- What each pass did. -/
structure Report where
  /-- The firings of the lowering; none if it is switched off. -/
  lowered : Option Nat
  references : Reference.Report
  inference : Inference.Report
  deriving DecidableEq, Repr

/-- Lower what lies below a root, if that is asked for. -/
def lowerIf (root : NodeId) (wanted : Bool) : Run Graph (Option Nat) :=
  if wanted then do return some (← Lowering.run root) else return none

/-- Run the passes over the program below a root. -/
def run (s : Settings) (root : NodeId) : Run Graph Report := do
  let lowered ← lowerIf root s.lower
  let references ← Reference.run root s.maxRounds
  let inference ← Inference.run root s.maxRounds s.allowUntypedParams
  return ⟨lowered, references, inference⟩

end Analysis

end TypeFlow
