import TypeFlow.Lowering.OperatorSequence
/-!
# Keyword arguments

The keyword arguments of a call are collected, in order, into one map literal behind its
positional arguments.
-/

namespace TypeFlow

namespace Lowering

/-- Whether a node is a keyword argument. -/
def isKwArg (g : Graph) (n : NodeId) : Bool := g.kind n = .surface .kwArg

/-- A keyword argument with its name and its value. -/
structure Keyword where
  node : NodeId
  name : String
  value : NodeId
  deriving DecidableEq, Repr

/-- The name and the value of a keyword argument. -/
def readKeyword (g : Graph) (n : NodeId) : Except Fault Keyword := do
  let name ← g.requireName n
  let value ← g.requireChild n .value
  return ⟨n, name, value⟩

/-- Add an entry for a keyword argument to a map literal, and empty the argument. -/
def addEntry (map : Handle) (k : Keyword) : Draft Unit := do
  let entry ← Draft.node (.expr .mapEntry) .none
  let key ← Draft.node (.expr .strLit) (.str k.name)
  Draft.setChild entry .key key
  Draft.setChild entry .value k.value
  Draft.pushItem map entry
  Draft.detach k.node

/-- Collect the keyword arguments of a call into a map literal. -/
def collectKeywordArgs : GraphRule where
  name := "keyword-args"
  applies g n :=
    (g.kind n = .expr .call || g.kind n = .expr .methodCall) && g.isAttached n &&
      (g.items n).any (isKwArg g)
  effect g n := do
    let keywords ← ((g.items n).filter (isKwArg g)).mapM (readKeyword g)
    let positional := (g.items n).filter fun arg => !isKwArg g arg
    return some <| Draft.patch do
      Draft.clearItems n
      positional.forM fun arg => Draft.pushItem n arg
      let map ← Draft.node (.expr .mapLit) .none
      keywords.forM (addEntry map)
      Draft.pushItem n map

end Lowering

end TypeFlow
