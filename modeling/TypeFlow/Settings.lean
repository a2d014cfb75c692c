/-!
# Settings

What a run of the passes can be told: how many rounds may fire before a fixpoint counts as
diverging, whether surface forms are lowered first, whether undeclared parameters that no call
reaches are dynamic, and whether firings are traced. Tracing changes no result.
-/

namespace TypeFlow

/-- What a run can be told. -/
structure Settings where
  maxRounds : Nat
  lower : Bool
  allowUntypedParams : Bool
  traceRules : Bool
  deriving DecidableEq, Repr

namespace Settings

/-- The settings of a run that is told nothing. -/
def standard : Settings := ⟨20, true, true, false⟩

instance : Inhabited Settings := ⟨standard⟩

/-- The largest number that a settings text can hold. -/
def largest : Nat := 9223372036854775807

/-- A line that sets a key. -/
def line (key value : String) : String := key ++ " = " ++ value ++ "\n"

/-- The text of settings, a line for each key; there is none if a number does not fit. -/
def text? (s : Settings) : Option String :=
  if s.maxRounds ≤ largest then
    some <|
      line "max_rounds" (toString s.maxRounds) ++ line "desugar" (toString s.lower) ++
        line "allow_untyped_params" (toString s.allowUntypedParams) ++
        line "trace_rules" (toString s.traceRules)
  else none

end Settings

end TypeFlow
