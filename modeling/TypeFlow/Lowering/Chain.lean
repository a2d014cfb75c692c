import TypeFlow.Lowering.OperatorSequence
/-!
# Pipes and dotted chains

A pipe hands a value through calls, each of which takes it as its first argument. A dotted chain
reads fields and calls methods, each on what stands before the dot. Both lower to trees nested to
the left, in which the last call or segment takes the place of the whole.
-/

namespace TypeFlow

namespace Lowering

/-! ## Pipes -/

/-- Put `value` in front of the arguments of the first call, that call in front of those of the
next, and so on; the answer is the last. -/
def handThrough (g : Graph) (value : NodeId) : List NodeId → Draft NodeId
  | [] => return value
  | c :: cs => do
    Draft.clearItems c
    Draft.pushItem c value
    (g.items c).forM fun arg => Draft.pushItem c arg
    handThrough g c cs

/-- Lower a pipe to nested calls. -/
def lowerDotPipe : GraphRule where
  name := "dot-pipe"
  applies g n := g.kind n = .surface .dotPipe && g.isAttached n
  effect g n :=
    match g.items n with
    | [] => .error (.malformedSurface n .emptyPipe)
    | head :: calls =>
      match calls.find? fun c => g.kind c ≠ .expr .call with
      | some c => .error (.malformedSurface c .stageNotCall)
      | none => .ok <| some <| Draft.patch do
        let last ← handThrough g head calls
        Draft.retire n last

/-! ## Dotted chains -/

/-- What a segment turns into behind a dot. -/
def afterDot? : NodeKind → Option ExprKind
  | .expr .ident => some .fieldGet
  | .expr .call => some .methodCall
  | _ => none

/-- A segment and what it turns into. -/
def readSegment (g : Graph) (n : NodeId) : Except Fault (NodeId × ExprKind) :=
  match afterDot? (g.kind n) with
  | some k => .ok (n, k)
  | none => .error (.malformedSurface n (.notAfterDot (g.kind n)))

/-- Let each segment receive what stands before it; the answer is the last. -/
def receiveThrough (base : NodeId) : List (NodeId × ExprKind) → Draft NodeId
  | [] => return base
  | (s, k) :: rest => do
    Draft.setKind s (.expr k)
    Draft.setChild s .receiver base
    receiveThrough s rest

/-- Lower a dotted chain to field reads and method calls. -/
def lowerDotted : GraphRule where
  name := "dotted-access"
  applies g n := g.kind n = .surface .dotted && g.isAttached n
  effect g n :=
    match g.items n with
    | [] => .error (.malformedSurface n .emptyChain)
    | base :: segments => do
      let segments ← segments.mapM (readSegment g)
      return some <| Draft.patch do
        let last ← receiveThrough base segments
        Draft.retire n last

end Lowering

end TypeFlow
