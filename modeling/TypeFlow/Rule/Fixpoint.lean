import TypeFlow.Rule
/-!
# Rounds up to a fixpoint

A round runs every rule, in order, at every node of a fixed list, in order. Rounds are repeated
until one of them fires nothing. A ceiling bounds the rounds in which something fires; the round
that goes past it stops the run with the last rule that fired.
-/

namespace TypeFlow

/-- What a run of rounds did. -/
structure Stats where
  /-- All rounds, with the final quiet one. -/
  rounds : Nat
  /-- The rounds in which a rule fired. -/
  productive : Nat
  firings : Nat
  deriving DecidableEq, Repr

/-- What a round did: how often a rule fired, and which fired last and where. -/
structure Round where
  firings : Nat
  last? : Option (String × NodeId)
  deriving DecidableEq, Repr

namespace Rule

variable {σ π : Type}

/-- Fire a rule along a list of nodes. -/
def alongNodes (commit : Commit σ π) (r : Rule σ π) : List NodeId → Round → Run σ Round
  | [], done => return done
  | n :: ns, done => do
    if ← r.tryAt commit n then r.alongNodes commit ns ⟨done.firings + 1, some (r.name, n)⟩
    else r.alongNodes commit ns done

/-- Fire each rule along a list of nodes. -/
def alongRules (commit : Commit σ π) (nodes : List NodeId) : List (Rule σ π) → Round → Run σ Round
  | [], done => return done
  | r :: rs, done => do
    let done ← r.alongNodes commit nodes done
    alongRules commit nodes rs done

/-- One round of rules over candidate nodes. -/
def round (commit : Commit σ π) (rules : List (Rule σ π)) (nodes : List NodeId) : Run σ Round :=
  alongRules commit nodes rules ⟨0, none⟩

/-- Repeat rounds until one is quiet. At most `left` more rounds may fire. -/
def settle (commit : Commit σ π) (rules : List (Rule σ π)) (nodes : List NodeId)
    (left : Nat) (stats : Stats) : Run σ Stats := do
  let done ← round commit rules nodes
  match done.last? with
  | none => return { stats with rounds := stats.rounds + 1 }
  | some (rule, node) =>
    match left with
    | 0 => throw (.diverged rule node (stats.rounds + 1))
    | left + 1 =>
      settle commit rules nodes left
        ⟨stats.rounds + 1, stats.productive + 1, stats.firings + done.firings⟩

/-- Repeat rounds until one is quiet, with at most `ceiling` rounds that fire. -/
def fixpoint (commit : Commit σ π) (rules : List (Rule σ π)) (nodes : List NodeId)
    (ceiling : Nat) : Run σ Stats :=
  settle commit rules nodes ceiling ⟨0, 0, 0⟩

end Rule

end TypeFlow
