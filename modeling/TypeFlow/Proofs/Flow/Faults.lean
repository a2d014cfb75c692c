import TypeFlow.Flow.Accept
import TypeFlow.Flow.Seed
import TypeFlow.Proofs.Flow.Leaves
import TypeFlow.Proofs.Rule.Fixpoint
/-!
# Faults of flow rules

Seeding and the flow rules may miss a child or a name, or meet a malformed set, but no fault of
theirs is that of a round ceiling (`local_asks`, `local_seedRequests`).
-/

namespace TypeFlow

variable {g : Graph} {t : BoundsTable} {n : NodeId}

namespace Graph

theorem local_annotationBase (g : Graph) (n : NodeId) : Local (g.annotationBase n) := by
  unfold annotationBase
  split
  · exact local_ok _
  · exact local_error rfl

theorem local_argedSet (b : BaseType) (arg : TypeSet) : Local (argedSet b arg) := by
  unfold argedSet
  split
  · exact local_ok _
  · exact local_error rfl

theorem local_annotationOver (g : Graph) : ∀ (depth : Nat) (n : NodeId),
    Local (g.annotationOver depth n)
  | 0, _ => local_error rfl
  | depth + 1, n => by
    rw [annotationOver]
    split
    · exact local_ok _
    · exact (local_requireChild g n _).bind fun m => (local_annotationBase g m).bind fun b =>
        (local_requireChild g n _).bind fun m => (local_annotationOver g depth m).bind fun a =>
          local_argedSet b a
    · exact (local_requireChild g n _).bind fun _ => local_pure _
    · exact local_ok _
    · exact local_ok _
    · exact local_error rfl

theorem local_annotationSet (g : Graph) (n : NodeId) : Local (g.annotationSet n) :=
  local_annotationOver g _ n

end Graph

open TypeFlow.Graph

namespace Flow

theorem local_joinOnto : ∀ (sofar : TypeSet) (sets : List TypeSet), Local (joinOnto sofar sets)
  | _, [] => local_ok _
  | sofar, x :: xs => by
    rw [joinOnto]
    split
    · exact local_error rfl
    · exact local_joinOnto _ xs

theorem local_join? (sets : List TypeSet) : Local (join? sets) :=
  (local_joinOnto _ sets).bind fun _ => local_pure _

theorem local_joinElements (t : BoundsTable) : ∀ (sofar : TypeSet) (es : List NodeId),
    Local (joinElements t sofar es)
  | _, [] => local_ok _
  | sofar, e :: es => by
    rw [joinElements]
    split
    · exact local_ok _
    · split
      · exact local_error rfl
      · exact local_joinElements t _ es

theorem local_calleeResult (g : Graph) (t : BoundsTable) (func : NodeId) :
    Local (calleeResult g t func) := by
  unfold calleeResult
  split
  · exact local_annotationSet g _
  · split
    · exact local_ok _
    · exact local_ok _

theorem local_callResult (g : Graph) (t : BoundsTable) (n : NodeId) : Local (callResult g t n) := by
  unfold callResult
  split
  · exact (local_requireChild g n _).bind fun _ => local_calleeResult g t _
  · exact (local_requireChild g n _).bind fun _ => local_pure _
  · refine (local_requireName g n).bind fun _ => (local_requireChild g n _).bind fun target => ?_
    split
    · exact local_pure _
    · exact local_pure _
    · split
      · exact local_pure _
      · exact (local_mapM (local_calleeResult g t) _).bind fun _ => local_joinOnto _ _
  · exact local_ok _

theorem local_callBinding (g : Graph) (t : BoundsTable) (n : NodeId) :
    Local (callBinding g t n) := by
  unfold callBinding
  split
  · exact (local_requireChild g n _).bind fun _ => local_pure _
  · exact (local_requireChild g n _).bind fun _ => local_pure _
  · refine (local_requireName g n).bind fun _ => (local_requireChild g n _).bind fun target => ?_
    split <;> exact local_pure _

theorem local_fieldResult (g : Graph) (t : BoundsTable) (n : NodeId) :
    Local (fieldResult g t n) := by
  refine (local_requireName g n).bind fun _ => (local_requireChild g n _).bind fun target => ?_
  split
  · exact local_pure _
  · exact local_pure _
  · split
    · exact local_pure _
    · exact local_join? _

theorem local_writtenFields (g : Graph) (t : BoundsTable) (n : NodeId) :
    Local (writtenFields g t n) := by
  unfold writtenFields
  split
  · refine (local_requireName g n).bind fun _ => (local_requireChild g n _).bind fun base => ?_
    split <;> exact local_pure _
  · exact local_ok _

/-- No flow rule fails for want of rounds. -/
theorem local_asks {methods : List NodeId} {r : FlowRule} (hr : r ∈ rules g methods)
    (t : BoundsTable) (n : NodeId) : Local (r.asks t n) := by
  simp only [rules, List.mem_cons, List.not_mem_nil, or_false] at hr
  rcases hr with rfl | rfl | rfl | rfl | rfl | rfl | rfl | rfl | rfl | rfl | rfl | rfl | rfl | rfl |
    rfl
  · simp only [literalRule]
    split <;> exact local_ok _
  · simp only [collectionRule]
    split
    · exact local_ok _
    · split
      · exact local_ok _
      · refine (local_joinElements t _ _).bind fun joined => ?_
        split <;> exact local_pure _
  · simp only [selfRule]
    split <;> exact local_ok _
  · exact (local_callResult g t n).bind fun _ => local_pure _
  · refine (local_callBinding g t n).bind fun binding => ?_
    split <;> exact local_pure _
  · simp only [binaryRule]
    split
    · refine (local_requireChild g n _).bind fun _ => (local_requireChild g n _).bind fun _ => ?_
      split <;> exact local_pure _
    · exact local_ok _
  · simp only [unaryRule]
    split
    · exact (local_requireChild g n _).bind fun _ => local_pure _
    · exact local_ok _
  · refine (local_requireChild g n _).bind fun _ => ?_
    dsimp only
    split <;> exact local_pure _
  · refine (local_requireChild g n _).bind fun _ => ?_
    dsimp only
    split
    · exact local_pure _
    · refine (local_join? _).bind fun types? => ?_
      split <;> exact local_pure _
  · refine (local_fieldResult g t n).bind fun types? => ?_
    split <;> exact local_pure _
  · simp only [assignRule]
    split
    · exact local_ok _
    · split
      · exact local_ok _
      · exact (local_writtenFields g t _).bind fun _ => local_pure _
  · simp only [returnRule]
    split <;> exact local_ok _
  · simp only [acceptRule]
    split <;> exact local_ok _
  · simp only [operatorRule]
    split <;> exact local_ok _
  · exact (local_requireChild g n _).bind fun _ => local_pure _

/-! ## Seeding -/

theorem local_seedNode (g : Graph) (called : List NodeId) (allow : Bool) (n : NodeId) :
    Local (seedNode g called allow n) := by
  unfold seedNode
  split
  · split
    · exact (local_annotationSet g _).bind fun _ => local_pure _
    · exact local_ok _
  · split
    · exact (local_annotationSet g _).bind fun _ => local_pure _
    · exact local_ok _
  · split
    · exact (local_annotationSet g _).bind fun _ => local_pure _
    · exact local_ok _
  · split <;> exact local_ok _
  · exact local_ok _

theorem local_seedInit (g : Graph) (n : NodeId) : Local (seedInit g n) := by
  unfold seedInit
  split
  · exact (local_annotationSet g _).bind fun _ => local_pure _
  · exact local_ok _

theorem local_seedRequests (g : Graph) (root : NodeId) (allow : Bool) (typable : List NodeId) :
    Local (seedRequests g root allow typable) :=
  (local_mapM (local_seedNode g _ allow) _).bind fun _ =>
    (local_mapM (local_seedInit g) _).bind fun _ => local_pure _

end Flow

end TypeFlow
