import TypeFlow.Proofs.Bounds.Direct
import TypeFlow.Proofs.Flow.Depth
/-!
# The filter of requests

An update takes up only requests that change something in the table that they are put to, and makes
all widenings before all narrowings. Neither shows: on a table of canonical bounds, and for any
requests with canonical sets, it does what performing them one by one does, it is empty exactly if
that is nothing, and otherwise it counts a change (`update_of_requests`). A flow rule fires only
with an update that is not empty, so that every firing leaves another table.
-/

namespace TypeFlow

namespace Flow

open TypeSet

variable {g : Graph} {methods : List NodeId} {r : FlowRule} {t t' : BoundsTable} {n : NodeId}
  {requests : List Request}

/-- The containers of canonical sets are canonical. -/
theorem literalsOver_true (g : Graph) (ht : t.Sound) : LiteralsOver g (fun _ => True) t := by
  intro n b joined hb hjoined
  have hover := over_joinElements ht.over over_empty hjoined
  exact Proper.over (proper_containerOf (isContainer_of_literalContainer? hb) hover.1) trivial

/-- On a table of canonical bounds the rules ask for canonical sets, whatever the graph. -/
theorem canonical_asks (ht : t.Sound) (hr : r ∈ rules g methods)
    (h : r.asks t n = .ok requests) : ∀ q ∈ requests, q.Canonical := fun q hq =>
  (over_asks (leafFamily_true g) ht.over (literalsOver_true g ht) trivial hr h q hq).1

/-- A rule fires only with requests that change something. -/
theorem ne_of_fires (ht : t.Sound) (hr : r ∈ rules g methods)
    (h : Rule.Fires commit r.toRule n t t') : t' ≠ t := by
  have hcanonical : ∀ requests, r.asks t n = .ok requests → ∀ q ∈ requests, q.Canonical :=
    fun _ hasks => canonical_asks ht hr hasks
  obtain ⟨-, requests, hasks, ⟨q, hq, hchanges⟩, rfl⟩ :=
    FlowRule.eq_result_of_fires ht hcanonical h
  exact Update.result_ofRequests_ne ht (hcanonical _ hasks) hq hchanges

end Flow

namespace Update

variable {t : BoundsTable} {requests : List Request}

/-- Taking requests up in one update against a table and applying it does what performing them one
by one does: widening what the slot of a node shows to the union, narrowing what it permits to the
intersection, and nothing for a node without a slot. The update is empty exactly if all of that
changes nothing; if it is not, it counts at least one change. So every firing of a flow rule leaves
another table. -/
theorem update_of_requests (ht : t.Sound) (hr : ∀ r ∈ requests, r.Canonical) :
    (∃ changed, (ofRequests t requests).apply.run t =
        (.ok changed, requests.foldl Request.perform t) ∧
      (changed = 0 ↔ (ofRequests t requests).nonempty? = none)) ∧
    ((ofRequests t requests).nonempty? = none ↔ requests.foldl Request.perform t = t) ∧
    ∀ g methods, ∀ r ∈ Flow.rules g methods, ∀ n t',
      Rule.Fires Flow.commit r.toRule n t t' → t' ≠ t := by
  have hnone := nonempty?_eq_none_iff ht hr
  refine ⟨?_, hnone, fun g methods r hr n t' hfires => Flow.ne_of_fires ht hr hfires⟩
  obtain ⟨⟨changed, hrun⟩, -⟩ := run_apply ht (fits_ofRequests ht hr)
  refine ⟨changed, by rw [hrun, result_ofRequests ht hr], ?_⟩
  constructor
  · rintro rfl
    rw [hnone, ← result_ofRequests ht hr]
    exact eq_of_apply_zero hrun
  · intro h
    rw [eq_empty_of_nonempty? h] at hrun
    exact (Except.ok.inj (Run.outcome_eq.1 hrun).1).symm

/-- One slot that shows numbers, with two nodes bound to it. -/
def twoNames : BoundsTable :=
  ((BoundsTable.empty.fresh ⟨1⟩).share ⟨2⟩ ⟨0⟩).widenTo ⟨0⟩ (.base .int)

/-- A request that changes nothing, two for the one slot through either node, of which the second
changes nothing after the first, and one for a node without a slot. -/
def overlapping : List Request :=
  [.widen ⟨1⟩ (.base .int), .narrow ⟨2⟩ (.base .string),
    .narrow ⟨1⟩ (.anyOf [.base .int, .base .string]), .widen ⟨3⟩ (.base .bool)]

/-- Two requests are taken up, and one of them counts. -/
theorem update_of_requests_overlapping : twoNames.Sound ∧ (∀ r ∈ overlapping, r.Canonical) ∧
    (ofRequests twoNames overlapping).narrow.length = 2 ∧
    (ofRequests twoNames overlapping).apply.run twoNames =
      (.ok 1, overlapping.foldl Request.perform twoNames) ∧
    overlapping.foldl Request.perform twoNames ≠ twoNames := by
  have hbase : ∀ b, (TypeSet.base b).Canonical := fun b => TypeSet.Proper.canonical trivial
  have hunion : (TypeSet.ofLeaves [.base .int, .base .string]).Canonical :=
    TypeSet.canonical_ofLeaves (by simp [TypeSet.Proper])
  have ht : twoNames.Sound :=
    ((BoundsTable.sound_empty.fresh ⟨1⟩).share (by decide) ⟨2⟩).widenTo (by decide) (hbase .int)
  have hr : ∀ r ∈ overlapping, r.Canonical := by
    simp only [overlapping, List.forall_mem_cons]
    exact ⟨hbase .int, hbase .string, hunion, hbase .bool, List.forall_mem_nil _⟩
  obtain ⟨⟨changed, hrun, -⟩, hnone, -⟩ := update_of_requests ht hr
  refine ⟨ht, hr, by decide, ?_, ?_⟩
  · have hcount : ((ofRequests twoNames overlapping).apply.run twoNames).1 = .ok 1 := by
      decide +kernel
    rw [hrun] at hcount ⊢
    exact Run.outcome_eq.2 ⟨hcount, rfl⟩
  · rw [Ne, ← hnone]
    decide

end Update

end TypeFlow
