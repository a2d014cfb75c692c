import TypeFlow.BaseType
/-!
# Plain type sets

A `PlainSet` writes a set of base types as a small expression: the universe, the empty set, one
base type, or a union or intersection of operands. Values are trees; equal trees are decided
through the order `PlainSet.order`, whose `.eq` is equality (`order_eq_eq`).

`union` and `inter` put their two operands in order, so that both orders of writing give one
tree.
-/

namespace TypeFlow

/-- A set of base types, written as an expression. -/
inductive PlainSet where
  /-- Everything. -/
  | univ
  /-- Nothing. -/
  | empty
  /-- What lies in at least one operand. -/
  | anyOf (ops : List PlainSet)
  /-- What lies in every operand. -/
  | allOf (ops : List PlainSet)
  /-- One base type. -/
  | base (b : BaseType)
  deriving Repr, Inhabited

namespace PlainSet

/-! ## Order -/

/-- The place of the outermost form in the order. -/
def shape : PlainSet → Nat
  | .univ => 0
  | .empty => 1
  | .anyOf _ => 2
  | .allOf _ => 3
  | .base _ => 4

mutual

/-- Trees are ordered by outermost form, then by their parts from the left. -/
def order : PlainSet → PlainSet → Ordering
  | .anyOf xs, .anyOf ys => orderList xs ys
  | .allOf xs, .allOf ys => orderList xs ys
  | .base a, .base b => compare a b
  | a, b => compare a.shape b.shape

/-- Lists of trees are ordered from the left, and a shorter beginning comes first. -/
def orderList : List PlainSet → List PlainSet → Ordering
  | [], [] => .eq
  | [], _ :: _ => .lt
  | _ :: _, [] => .gt
  | x :: xs, y :: ys => (order x y).then (orderList xs ys)

end

mutual

theorem order_self : ∀ a : PlainSet, order a a = .eq
  | .univ => rfl
  | .empty => rfl
  | .anyOf xs => orderList_self xs
  | .allOf xs => orderList_self xs
  | .base _ => BaseType.compare_eq_eq.2 rfl

theorem orderList_self : ∀ xs : List PlainSet, orderList xs xs = .eq
  | [] => rfl
  | x :: xs => by rw [orderList, order_self x, orderList_self xs]; rfl

end

mutual

theorem eq_of_order : ∀ a b : PlainSet, order a b = .eq → a = b
  | .univ, .univ, _ => rfl
  | .empty, .empty, _ => rfl
  | .anyOf xs, .anyOf ys, h => by rw [eq_of_orderList xs ys h]
  | .allOf xs, .allOf ys, h => by rw [eq_of_orderList xs ys h]
  | .base _, .base _, h => by rw [BaseType.compare_eq_eq.1 h]

theorem eq_of_orderList : ∀ xs ys : List PlainSet, orderList xs ys = .eq → xs = ys
  | [], [], _ => rfl
  | x :: xs, y :: ys, h => by
    rw [orderList, Ordering.then_eq_eq] at h
    rw [eq_of_order x y h.1, eq_of_orderList xs ys h.2]

end

theorem order_eq_eq {a b : PlainSet} : order a b = .eq ↔ a = b :=
  ⟨eq_of_order a b, fun h => h ▸ order_self a⟩

instance : DecidableEq PlainSet := fun _ _ => decidable_of_iff _ order_eq_eq

/-! ## Union and intersection -/

/-- The two operands, the lower one first. -/
def ordered (a b : PlainSet) : List PlainSet :=
  if order a b = .gt then [b, a] else [a, b]

/-- The universe absorbs and the empty set is neutral. -/
def union (a b : PlainSet) : PlainSet :=
  if a = .univ ∨ b = .univ then .univ
  else if a = .empty then b
  else if b = .empty then a
  else if a = b then a
  else .anyOf (ordered a b)

/-- The empty set absorbs and the universe is neutral. -/
def inter (a b : PlainSet) : PlainSet :=
  if a = .empty ∨ b = .empty then .empty
  else if a = .univ then b
  else if b = .univ then a
  else if a = b then a
  else .allOf (ordered a b)

/-- The union of a list, taken from the left. -/
def unionAll (sets : List PlainSet) : PlainSet := sets.foldl union .empty

/-! ## Text -/

mutual

/-- Unions read `(a | b)` and intersections `(a & b)`; the universe is a star. -/
def text : PlainSet → String
  | .univ => "*"
  | .empty => "\x7b\x7d"
  | .base b => b.name
  | .anyOf ops => "(" ++ " | ".intercalate (texts ops) ++ ")"
  | .allOf ops => "(" ++ " & ".intercalate (texts ops) ++ ")"

def texts : List PlainSet → List String
  | [] => []
  | x :: xs => text x :: texts xs

end

instance : ToString PlainSet := ⟨text⟩

end PlainSet

end TypeFlow
