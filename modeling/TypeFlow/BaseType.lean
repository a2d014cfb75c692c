/-!
# Base types

The seven concrete types without parameters, in the order in which type sets list them.
`name` and `ofName?` are inverse to each other (`ofName?_name`).
-/

namespace TypeFlow

/-- A concrete type of the language that takes no parameter of its own. -/
inductive BaseType where
  | int
  | float
  | string
  | bool
  | list
  | map
  | set
  deriving DecidableEq, Repr, Inhabited

namespace BaseType

/-- Every base type, in order. -/
def all : List BaseType := [.int, .float, .string, .bool, .list, .map, .set]

/-- The place of a base type in the order. -/
def position : BaseType → Nat
  | .int => 0
  | .float => 1
  | .string => 2
  | .bool => 3
  | .list => 4
  | .map => 5
  | .set => 6

instance : Ord BaseType := ⟨fun a b => compare a.position b.position⟩

/-- The word that stands for the type in programs and in messages. -/
def name : BaseType → String
  | .int => "int"
  | .float => "float"
  | .string => "string"
  | .bool => "bool"
  | .list => "list"
  | .map => "map"
  | .set => "set"

instance : ToString BaseType := ⟨name⟩

/-- The base type that a word stands for. -/
def ofName? (word : String) : Option BaseType := all.find? (·.name == word)

/-- Containers take exactly one generic argument. -/
def isContainer : BaseType → Bool
  | .list | .map | .set => true
  | _ => false

/-- Numbers; arithmetic is defined on these. -/
def isNumeric : BaseType → Bool
  | .int | .float => true
  | _ => false

/-- What the length of a value of this type is; only containers have one. -/
def length? (b : BaseType) : Option BaseType := if b.isContainer then some .int else none

theorem mem_all (b : BaseType) : b ∈ all := by cases b <;> decide

theorem position_inj {a b : BaseType} : a.position = b.position ↔ a = b := by
  cases a <;> cases b <;> decide

theorem ofName?_name (b : BaseType) : ofName? b.name = some b := by cases b <;> decide

theorem compare_eq_eq {a b : BaseType} : compare a b = .eq ↔ a = b := by
  rw [← position_inj]
  exact Nat.compare_eq_eq

end BaseType

end TypeFlow
