import TypeFlow.BaseType
import TypeFlow.Node.Id
/-!
# Type sets

A `TypeSet` is what inference knows about a node: everything, nothing, or some leaves. A leaf is
a base type, a container with one argument that is itself a leaf, or a class, named by its
declaration.

Values meant for inference are canonical: a union holds at least two distinct leaves in strictly
ascending order. `ofLeaves` makes them so. The type admits other trees, and the operations are
defined on all of them. Equality of trees is decided by the order (`order_eq_eq`).
-/

namespace TypeFlow

/-- A set of types. -/
inductive TypeSet where
  /-- Everything. -/
  | univ
  /-- Nothing. -/
  | empty
  /-- A base type; a bare container stands for all its instances. -/
  | base (b : BaseType)
  /-- A container with one argument. -/
  | arged (b : BaseType) (arg : TypeSet)
  /-- A class, by its declaration. -/
  | cls (decl : NodeId)
  /-- What lies in at least one operand. -/
  | anyOf (ops : List TypeSet)
  deriving Repr, Inhabited

namespace TypeSet

/-! ## Order -/

/-- The place of the outermost form in the order. -/
def shape : TypeSet → Nat
  | .univ => 0
  | .empty => 1
  | .base _ => 2
  | .arged _ _ => 3
  | .cls _ => 4
  | .anyOf _ => 5

mutual

/-- Trees are ordered by outermost form, then by their parts from the left. -/
def order : TypeSet → TypeSet → Ordering
  | .base a, .base b => compare a b
  | .arged a x, .arged b y => (compare a b).then (order x y)
  | .cls a, .cls b => compare a b
  | .anyOf xs, .anyOf ys => orderList xs ys
  | a, b => compare a.shape b.shape

/-- Lists of trees are ordered from the left, and a shorter beginning comes first. -/
def orderList : List TypeSet → List TypeSet → Ordering
  | [], [] => .eq
  | [], _ :: _ => .lt
  | _ :: _, [] => .gt
  | x :: xs, y :: ys => (order x y).then (orderList xs ys)

end

mutual

theorem order_self : ∀ a : TypeSet, order a a = .eq
  | .univ => rfl
  | .empty => rfl
  | .base _ => BaseType.compare_eq_eq.2 rfl
  | .arged b x => by rw [order, BaseType.compare_eq_eq.2 rfl, order_self x]; rfl
  | .cls _ => NodeId.compare_eq_eq.2 rfl
  | .anyOf xs => orderList_self xs

theorem orderList_self : ∀ xs : List TypeSet, orderList xs xs = .eq
  | [] => rfl
  | x :: xs => by rw [orderList, order_self x, orderList_self xs]; rfl

end

mutual

theorem eq_of_order : ∀ a b : TypeSet, order a b = .eq → a = b
  | .univ, .univ, _ => rfl
  | .empty, .empty, _ => rfl
  | .base _, .base _, h => by rw [BaseType.compare_eq_eq.1 h]
  | .arged a x, .arged b y, h => by
    rw [order, Ordering.then_eq_eq] at h
    rw [BaseType.compare_eq_eq.1 h.1, eq_of_order x y h.2]
  | .cls _, .cls _, h => by rw [NodeId.compare_eq_eq.1 h]
  | .anyOf xs, .anyOf ys, h => by rw [eq_of_orderList xs ys h]

theorem eq_of_orderList : ∀ xs ys : List TypeSet, orderList xs ys = .eq → xs = ys
  | [], [], _ => rfl
  | x :: xs, y :: ys, h => by
    rw [orderList, Ordering.then_eq_eq] at h
    rw [eq_of_order x y h.1, eq_of_orderList xs ys h.2]

end

theorem order_eq_eq {a b : TypeSet} : order a b = .eq ↔ a = b :=
  ⟨eq_of_order a b, fun h => h ▸ order_self a⟩

instance : DecidableEq TypeSet := fun _ _ => decidable_of_iff _ order_eq_eq

/-! ## Leaves -/

/-- Base types, containers with an argument, and classes. -/
def isLeaf : TypeSet → Bool
  | .base _ | .arged _ _ | .cls _ => true
  | _ => false

/-- The base type at the head of a leaf; a class has none. -/
def head? : TypeSet → Option BaseType
  | .base b | .arged b _ => some b
  | _ => none

/-- The operands of a union, none for the empty set, and otherwise the value itself. -/
def leaves : TypeSet → List TypeSet
  | .anyOf ops => ops
  | .empty => []
  | other => [other]

/-- Put a leaf into its place in an ascending list; one that is there already stays alone. -/
def insertLeaf (x : TypeSet) : List TypeSet → List TypeSet
  | [] => [x]
  | y :: ys =>
    match order x y with
    | .lt => x :: y :: ys
    | .eq => y :: ys
    | .gt => y :: insertLeaf x ys

/-- A list of leaves as a set: nothing for none, and the leaf itself for one. -/
def collect : List TypeSet → TypeSet
  | [] => .empty
  | [x] => x
  | xs => .anyOf xs

/-- The canonical set of the given leaves. -/
def ofLeaves (xs : List TypeSet) : TypeSet := collect (xs.foldr insertLeaf [])

/-! ## Text -/

mutual

/-- Leaves read `int`, `list<int>` and `class#7`; a union lists its operands. -/
def text : TypeSet → String
  | .univ => "*"
  | .empty => "\x7b\x7d"
  | .base b => b.name
  | .arged b arg => b.name ++ "<" ++ text arg ++ ">"
  | .cls decl => "class" ++ decl.text
  | .anyOf ops => " | ".intercalate (texts ops)

def texts : List TypeSet → List String
  | [] => []
  | x :: xs => text x :: texts xs

end

instance : ToString TypeSet := ⟨text⟩

end TypeSet

end TypeFlow
