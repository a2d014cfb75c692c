import TypeFlow.PlainSet.Normal
/-!
# Inclusion of plain type sets

`subset?` decides whether every type of one set is in another. It answers on normal forms with
at most one level of operators and is undecided beyond that, except where the trees alone
settle the question.
-/

namespace TypeFlow

namespace PlainSet

mutual

/-- Nesting of operators: a leaf has depth 0 and an operator over leaves depth 1. -/
def depth : PlainSet → Nat
  | .anyOf ops => 1 + depthMax ops
  | .allOf ops => 1 + depthMax ops
  | _ => 0

def depthMax : List PlainSet → Nat
  | [] => 0
  | x :: xs => max (depth x) (depthMax xs)

end

mutual

/-- The base types of a set; `none` stands for the universe. -/
def atoms : PlainSet → Option (List BaseType)
  | .univ => none
  | .empty => some []
  | .base b => some [b]
  | .anyOf ops => atomsAny ops
  | .allOf ops => atomsAll none ops

/-- The atoms of a union: those of every operand. -/
def atomsAny : List PlainSet → Option (List BaseType)
  | [] => some []
  | x :: xs =>
    match atoms x, atomsAny xs with
    | some a, some b => some (a ++ b)
    | _, _ => none

/-- The atoms that lie in `sofar` and in every operand. -/
def atomsAll (sofar : Option (List BaseType)) : List PlainSet → Option (List BaseType)
  | [] => sofar
  | x :: xs =>
    match sofar, atoms x with
    | none, a => atomsAll a xs
    | some a, none => atomsAll (some a) xs
    | some a, some b => atomsAll (some (a.filter (· ∈ b))) xs

end

/-- Inclusion of atoms. -/
def atomsSubset : Option (List BaseType) → Option (List BaseType) → Bool
  | none, _ => true
  | some _, none => false
  | some c, some s => s.all (· ∈ c)

/-- A question of inclusion that nesting leaves open: the two sets in normal form. -/
structure Undecided where
  container : PlainSet
  sub : PlainSet
  deriving DecidableEq, Repr

/-- Why an inclusion is not answered. -/
def Undecided.message (u : Undecided) : String :=
  s!"cannot decide whether `{u.sub}` is a subset of `{u.container}`: operand nested past one level"

/-- Whether every type in `sub` is in `container`. -/
def subset? (container sub : PlainSet) : Except Undecided Bool :=
  if container = .univ ∨ sub = .empty ∨ container = sub then .ok true
  else
    let c := simplify container
    let s := simplify sub
    if 1 < c.depth ∨ 1 < s.depth then .error ⟨c, s⟩
    else .ok (atomsSubset c.atoms s.atoms)

end PlainSet

end TypeFlow
