/-!
# Roles

The label of an edge says what the node at its end is for the node at its start. Roles are
ordered by `position`, which tells them apart (`position_inj`); the items of a list come last, by
index.
-/

namespace TypeFlow

/-- The label of an edge, seen from its source. -/
inductive Role where
  | value
  | target
  | left
  | right
  | operand
  | cond
  | body
  | otherwise
  | iter
  | receiver
  | key
  | declaredType
  | returnType
  | returnSlot
  | locals
  | base
  | arg
  /-- The definition that a reference stands for. -/
  | ref
  /-- The type that inference chose. -/
  | colored
  /-- A place in an ordered list. -/
  | item (index : UInt32)
  deriving DecidableEq, Repr

namespace Role

instance : Inhabited Role := ⟨.value⟩

/-- The roles that are not places in a list, in order. -/
def named : List Role :=
  [.value, .target, .left, .right, .operand, .cond, .body, .otherwise, .iter, .receiver, .key,
    .declaredType, .returnType, .returnSlot, .locals, .base, .arg, .ref, .colored]

/-- The place of a role in the order. -/
def position : Role → Nat
  | .value => 0
  | .target => 1
  | .left => 2
  | .right => 3
  | .operand => 4
  | .cond => 5
  | .body => 6
  | .otherwise => 7
  | .iter => 8
  | .receiver => 9
  | .key => 10
  | .declaredType => 11
  | .returnType => 12
  | .returnSlot => 13
  | .locals => 14
  | .base => 15
  | .arg => 16
  | .ref => 17
  | .colored => 18
  | .item i => 19 + i.toNat

instance : Ord Role := ⟨fun a b => compare a.position b.position⟩

/-- Whether the edge is part of the tree of the program. The others are links across it. -/
def isStructural : Role → Bool
  | .ref | .colored => false
  | _ => true

/-- The index of a place in a list. -/
def index? : Role → Option UInt32
  | .item i => some i
  | _ => none

/-- Whether the role is a place in a list. -/
def isItem (r : Role) : Bool := r.index?.isSome

/-- The name of a role in messages. -/
def text : Role → String
  | .value => "Value"
  | .target => "Target"
  | .left => "Left"
  | .right => "Right"
  | .operand => "Operand"
  | .cond => "Cond"
  | .body => "Body"
  | .otherwise => "Else"
  | .iter => "Iter"
  | .receiver => "Receiver"
  | .key => "Key"
  | .declaredType => "DeclaredType"
  | .returnType => "ReturnType"
  | .returnSlot => "ReturnSlot"
  | .locals => "Locals"
  | .base => "Base"
  | .arg => "Arg"
  | .ref => "Ref"
  | .colored => "Colored"
  | .item i => s!"item[{i}]"

instance : ToString Role := ⟨text⟩

theorem position_inj {a b : Role} : a.position = b.position ↔ a = b := by
  cases a <;> cases b <;> simp [position, UInt32.toNat_inj] <;> omega

end Role

end TypeFlow
