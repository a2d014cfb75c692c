import TypeFlow.Lowering.OperatorSequence
/-!
# Loops over a container

`for v in xs { body }` lowers to a loop that counts. With `n` the number of the loop's node it
becomes

* `__itn : xs` and `__ixn : -1`,
* `while __ixn + 1 < len(__itn)`, whose rounds run `__ixn : __ixn + 1`, then
  `v : __itn[__ixn]`, then `body`.

The counter advances before the body, so that no jump out of the body can skip it.
-/

namespace TypeFlow

namespace Lowering

/-- The variable that holds the container of a loop. -/
def iteratorName (n : NodeId) : String := s!"__it{n.index}"

/-- The variable that counts the rounds of a loop. -/
def counterName (n : NodeId) : String := s!"__ix{n.index}"

/-- A new identifier of a name. -/
def newIdent (name : String) : Draft Handle := Draft.node (.expr .ident) (.str name)

/-- The sum of a variable and one. -/
def plusOne (name : String) : Draft Handle := do
  let sum ← Draft.node (.expr (.binary .add)) .none
  let var ← newIdent name
  let one ← Draft.node (.expr .intLit) (.int 1)
  Draft.setChild sum .left var
  Draft.setChild sum .right one
  return sum

/-- A statement that gives a value to a target. -/
def newBinding (kind : StmtKind) (target value : Handle) : Draft Handle := do
  let s ← Draft.node (.stmt kind) .none
  Draft.setChild s .target target
  Draft.setChild s .value value
  return s

/-- The statements that take the place of a loop over a container, in a block of their own. -/
def countingLoop (var : String) (iter body : NodeId) (iterator counter : String) :
    Draft Handle := do
  let outer ← Draft.node (.stmt .block) .none
  let iteratorTarget ← newIdent iterator
  let initIterator ← newBinding .varInit iteratorTarget iter
  let counterTarget ← newIdent counter
  let minusOne ← Draft.node (.expr .intLit) (.int (-1))
  let initCounter ← newBinding .varInit counterTarget minusOne
  let cond ← Draft.node (.expr (.binary .lt)) .none
  let next ← plusOne counter
  let len ← Draft.node (.expr .len) .none
  let measured ← newIdent iterator
  Draft.setChild len .operand measured
  Draft.setChild cond .left next
  Draft.setChild cond .right len
  let stepTarget ← newIdent counter
  let stepValue ← plusOne counter
  let step ← newBinding .assign stepTarget stepValue
  let element ← Draft.node (.expr .index) .none
  let container ← newIdent iterator
  let position ← newIdent counter
  Draft.setChild element .value container
  Draft.setChild element .key position
  let varTarget ← newIdent var
  let bind ← newBinding .assign varTarget element
  let loopBody ← Draft.node (.stmt .block) .none
  Draft.pushItem loopBody step
  Draft.pushItem loopBody bind
  Draft.pushItem loopBody body
  let loop ← Draft.node (.stmt .whileLoop) .none
  Draft.setChild loop .cond cond
  Draft.setChild loop .body loopBody
  Draft.pushItem outer initIterator
  Draft.pushItem outer initCounter
  Draft.pushItem outer loop
  return outer

/-- Lower a loop over a container to a loop that counts. -/
def lowerForIn : GraphRule where
  name := "for-in"
  applies g n := g.kind n = .surface .forIn && g.isAttached n
  effect g n := do
    let var ← g.requireName n
    let iter ← g.requireChild n .iter
    let body ← g.requireChild n .body
    return some <| Draft.patch do
      let outer ← countingLoop var iter body (iteratorName n) (counterName n)
      Draft.retire n outer

end Lowering

end TypeFlow
