import TypeFlow.Bounds
/-!
# Updates of bounds

An update collects widenings and narrowings of slots. A request that would change nothing in the
table at hand is not taken up, so that an update with nothing in it stands for a rule that has
nothing to say. `Update.ofRequests` takes up the requests of a list in order.
-/

namespace TypeFlow

/-- What may be asked of a table: to widen what a node shows, or to narrow what it permits. -/
inductive Request where
  | widen (node : NodeId) (types : TypeSet)
  | narrow (node : NodeId) (types : TypeSet)
  deriving DecidableEq, Repr

/-- Sets to widen slots with and sets to narrow slots to. -/
structure Update where
  widen : List (Slot × TypeSet)
  narrow : List (Slot × TypeSet)
  deriving DecidableEq, Repr

namespace Update

/-- The update that asks for nothing. -/
def empty : Update := ⟨[], []⟩

/-- Whether the update asks for nothing. -/
def isEmpty (u : Update) : Bool := u.widen.isEmpty && u.narrow.isEmpty

/-- Ask to widen what a node shows. -/
def widenAt (u : Update) (t : BoundsTable) (n : NodeId) (types : TypeSet) : Update :=
  match t.slot? n with
  | none => u
  | some s =>
    if (t.get s).shown.unionChanges types then { u with widen := u.widen ++ [(s, types)] } else u

/-- Ask to narrow what a node permits. -/
def narrowAt (u : Update) (t : BoundsTable) (n : NodeId) (types : TypeSet) : Update :=
  match t.slot? n with
  | none => u
  | some s =>
    if (t.get s).permitted.interChanges types then { u with narrow := u.narrow ++ [(s, types)] }
    else u

/-- The update, unless it is empty. -/
def nonempty? (u : Update) : Option Update := if u.isEmpty then none else some u

/-- Take up a request. -/
def ask (t : BoundsTable) (u : Update) : Request → Update
  | .widen n types => u.widenAt t n types
  | .narrow n types => u.narrowAt t n types

/-- The update that takes up requests in order. -/
def ofRequests (t : BoundsTable) (requests : List Request) : Update := requests.foldl (ask t) empty

/-- Make changes to slots in order, and count those that change something. -/
def applyEach (change : Slot → TypeSet → Run BoundsTable Bool) :
    List (Slot × TypeSet) → Run BoundsTable Nat
  | [] => return 0
  | (s, types) :: rest => do
    let changed ← change s types
    let more ← applyEach change rest
    return more + changed.toNat

/-- Make all widenings, then all narrowings, and count those that change something. -/
def apply (u : Update) : Run BoundsTable Nat := do
  let widened ← applyEach BoundsTable.widen u.widen
  let narrowed ← applyEach BoundsTable.narrow u.narrow
  return widened + narrowed

end Update

end TypeFlow
