import TypeFlow.TypeSet
/-!
# Common stems

The stem of two leaves is the most special leaf above both: containers of one kind have one, with
the stem of their arguments as argument, or bare where the arguments have none.
-/

namespace TypeFlow

namespace TypeSet

/-- The most special leaf above two leaves. -/
def leafStem : TypeSet → TypeSet → Option TypeSet
  | .arged a x, .arged b y =>
    if a = b then
      match leafStem x y with
      | some arg => some (.arged a arg)
      | none => some (.base a)
    else none
  | .base a, .arged b _ => if a = b then some (.base a) else none
  | .arged a _, .base b => if a = b then some (.base a) else none
  | x, y => if x = y then some x else none

/-- The most special leaf above all of a list, if the list has a member and there is one. -/
def commonStem : List TypeSet → Option TypeSet
  | [] => none
  | x :: xs => xs.foldlM leafStem x

/-- The common stem of the leaves of a set. -/
def stem? : TypeSet → Option TypeSet
  | .univ | .empty => none
  | other => commonStem other.leaves

end TypeSet

end TypeFlow
