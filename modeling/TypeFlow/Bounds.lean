import TypeFlow.Fault
/-!
# Bounds

What inference knows about a node is held between two type sets: what the node was shown to yield,
which grows by union, and what it is permitted to yield, which shrinks by intersection. Bounds
live in the slots of a table. A definition and all references to it are bound to one slot, so that
what is learnt through one of them holds for all.
-/

namespace TypeFlow

/-- What is known of a node: one set from below and one from above. -/
structure Bounds where
  /-- What the node was shown to yield. -/
  shown : TypeSet
  /-- What the node is permitted to yield. -/
  permitted : TypeSet
  deriving DecidableEq, Repr

namespace Bounds

/-- Nothing is shown yet and everything is permitted. -/
def initial : Bounds := ⟨.empty, .univ⟩

instance : Inhabited Bounds := ⟨initial⟩

/-- What is both shown and permitted. -/
def valid (b : Bounds) : Except TypeSet.Malformed TypeSet := b.shown.inter? b.permitted

end Bounds

/-- The number of a slot. -/
structure Slot where
  index : Nat
  deriving DecidableEq, Repr, Inhabited

/-- Slots with bounds, and the slot of each node that has bounds. -/
structure BoundsTable where
  slots : Array Bounds
  /-- The slots that nodes are bound to; the first entry of a node counts. -/
  binding : List (NodeId × Slot)
  deriving DecidableEq, Repr

namespace BoundsTable

/-- The table without slots. -/
def empty : BoundsTable := ⟨#[], []⟩

/-- The number of slots. -/
def size (t : BoundsTable) : Nat := t.slots.size

/-- The slot that the next call of `fresh` makes. -/
def nextSlot (t : BoundsTable) : Slot := ⟨t.slots.size⟩

/-- Bind a node to a slot, in place of an earlier one. -/
def share (t : BoundsTable) (n : NodeId) (s : Slot) : BoundsTable :=
  { t with binding := (n, s) :: t.binding }

/-- Bind a node to a new slot with initial bounds. -/
def fresh (t : BoundsTable) (n : NodeId) : BoundsTable :=
  ⟨t.slots.push .initial, (n, t.nextSlot) :: t.binding⟩

/-- The slot that a node is bound to. -/
def slot? (t : BoundsTable) (n : NodeId) : Option Slot := t.binding.lookup n

/-- The bounds in a slot; a slot that was never made reads as initial. -/
def get (t : BoundsTable) (s : Slot) : Bounds := t.slots.getD s.index .initial

/-- The bounds of a node, if it is bound to a slot. -/
def of? (t : BoundsTable) (n : NodeId) : Option Bounds := (t.slot? n).map t.get

/-- What a node was shown to yield; nothing if it has no bounds. -/
def shown (t : BoundsTable) (n : NodeId) : TypeSet := ((t.of? n).getD .initial).shown

/-- What a node is permitted to yield; everything if it has no bounds. -/
def permitted (t : BoundsTable) (n : NodeId) : TypeSet := ((t.of? n).getD .initial).permitted

/-- Put bounds into a slot that was made. -/
def set (t : BoundsTable) (s : Slot) (b : Bounds) : BoundsTable :=
  { t with slots := t.slots.setIfInBounds s.index b }

/-- Widen what a slot shows, and tell whether that changed it. -/
def widen (s : Slot) (types : TypeSet) : Run BoundsTable Bool := do
  let b := (← MonadState.get).get s
  if b.shown.unionChanges types then
    match b.shown.union? types with
    | .error cause => throw (.malformedSet cause)
    | .ok shown =>
      modify (·.set s { b with shown := shown })
      return true
  else return false

/-- Narrow what a slot permits, and tell whether that changed it. -/
def narrow (s : Slot) (types : TypeSet) : Run BoundsTable Bool := do
  let b := (← MonadState.get).get s
  if b.permitted.interChanges types then
    match b.permitted.inter? types with
    | .error cause => throw (.malformedSet cause)
    | .ok permitted =>
      modify (·.set s { b with permitted := permitted })
      return true
  else return false

end BoundsTable

end TypeFlow
