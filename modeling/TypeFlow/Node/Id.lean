/-!
# Node identifiers

Nodes of a program graph are numbered from zero in the order in which they are added.
-/

namespace TypeFlow

/-- The number of a node. -/
structure NodeId where
  index : Nat
  deriving DecidableEq, Repr, Inhabited

namespace NodeId

instance : Ord NodeId := ⟨fun a b => compare a.index b.index⟩

/-- A node is written as its number after a hash sign. -/
def text (n : NodeId) : String := s!"#{n.index}"

instance : ToString NodeId := ⟨text⟩

theorem compare_eq_eq {a b : NodeId} : compare a b = .eq ↔ a = b := by
  cases a
  cases b
  rw [NodeId.mk.injEq]
  exact Nat.compare_eq_eq

end NodeId

end TypeFlow
