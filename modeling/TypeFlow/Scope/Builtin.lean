/-!
# Builtin functions

The names that the runtime provides. A call of one of them is a call into the runtime, whatever
else has that name.
-/

namespace TypeFlow

/-- The functions that the runtime provides. -/
def builtins : List String :=
  ["print", "println", "input", "str", "int", "float", "bool", "exit", "assert", "range", "sys"]

/-- Whether the runtime provides a function of this name. -/
def isBuiltin (name : String) : Bool := name ∈ builtins

end TypeFlow
