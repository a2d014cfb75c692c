import TypeFlow.TypeSet.Algebra
/-!
# Well-formed type sets

`check` accepts a value whose unions hold leaves only and whose arguments are leaves of
containers. The checked operations refuse operands that it refuses, the left one first.
-/

namespace TypeFlow

namespace TypeSet

/-- What is wrong with a type set. -/
inductive Malformed where
  /-- A union holds an operand that is not a leaf. -/
  | nestedUnion (operand : TypeSet)
  /-- The argument of a container is not a leaf. -/
  | argumentNotLeaf (arg : TypeSet)
  /-- A type that is no container has an argument. -/
  | argumentOfNonContainer (b : BaseType) (arg : TypeSet)
  deriving DecidableEq, Repr

/-- The wording of what is wrong with a set. -/
def Malformed.message : Malformed → String
  | .nestedUnion operand =>
    s!"union operand `{operand}` is not a leaf (nested unions are forbidden)"
  | .argumentNotLeaf arg => s!"generic argument `{arg}` is not a single leaf type"
  | .argumentOfNonContainer b arg => s!"incompatible operand shapes `{b}` and `{arg}`"

/-- A leaf is well formed if containers alone have arguments and these are well-formed leaves.
Anything but a container with an argument passes. -/
def checkLeaf : TypeSet → Except Malformed Unit
  | .arged b arg =>
    if !b.isContainer then .error (.argumentOfNonContainer b arg)
    else if !arg.isLeaf then .error (.argumentNotLeaf arg)
    else checkLeaf arg
  | _ => .ok ()

/-- The operands of a union are well-formed leaves. -/
def checkOperands : List TypeSet → Except Malformed Unit
  | [] => .ok ()
  | x :: xs =>
    if !x.isLeaf then .error (.nestedUnion x)
    else
      match checkLeaf x with
      | .error e => .error e
      | .ok _ => checkOperands xs

/-- The first fault of a type set, from the left. -/
def check : TypeSet → Except Malformed Unit
  | .anyOf ops => checkOperands ops
  | other => checkLeaf other

/-- Apply an operation to operands that pass the check. -/
def checked (f : TypeSet → TypeSet → TypeSet) (a b : TypeSet) : Except Malformed TypeSet :=
  match check a, check b with
  | .error e, _ => .error e
  | .ok _, .error e => .error e
  | .ok _, .ok _ => .ok (f a b)

/-- Union of two well-formed sets. -/
def union? : TypeSet → TypeSet → Except Malformed TypeSet := checked union

/-- Intersection of two well-formed sets. -/
def inter? : TypeSet → TypeSet → Except Malformed TypeSet := checked inter

end TypeSet

end TypeFlow
