import TypeFlow.Flow.Accept
import TypeFlow.Proofs.Bounds.Update
import TypeFlow.Proofs.Rule.Fixpoint
/-!
# Firing of flow rules

A flow rule is quiet at a node exactly if none of its requests would change the table
(`fire?_eq_none`). Where its requests are canonical and the table is sound, a firing is the result
of an update (`eq_result_of_fires`), and the rule fails only if it cannot say what it asks for
(`asks_of_fails`).
-/

namespace TypeFlow

namespace FlowRule

variable {r : FlowRule} {t t' : BoundsTable} {n : NodeId} {requests : List Request}

theorem fire?_toRule (r : FlowRule) (t : BoundsTable) (n : NodeId) : r.toRule.fire? t n =
    if r.applies n then
      (r.asks t n).map fun requests => (Update.ofRequests t requests).nonempty?
    else .ok none := by
  have hfire : r.toRule.fire? t n =
      if r.applies n then do return (Update.ofRequests t (← r.asks t n)).nonempty?
      else .ok none := rfl
  rw [hfire]
  cases r.asks t n <;> rfl

/-- A rule is quiet where it does not apply and where its requests change nothing. -/
theorem fire?_eq_none : r.toRule.fire? t n = .ok none ↔ (r.applies n → ∃ requests,
    r.asks t n = .ok requests ∧ ∀ q ∈ requests, q.changes t = false) := by
  rw [fire?_toRule]
  by_cases happ : r.applies n
  · cases hasks : r.asks t n with
    | error fault => simp [happ, Except.map]
    | ok requests => simp [happ, Except.map, Update.nonempty?_ofRequests_eq_none]
  · simp [happ]

theorem fire?_eq_some {u : Update} (h : r.toRule.fire? t n = .ok (some u)) : r.applies n ∧
    ∃ requests, r.asks t n = .ok requests ∧ (∃ q ∈ requests, q.changes t) ∧
      u = Update.ofRequests t requests := by
  rw [fire?_toRule] at h
  by_cases happ : r.applies n
  · cases hasks : r.asks t n with
    | error fault => simp [happ, hasks, Except.map] at h
    | ok requests =>
      have hu : (Update.ofRequests t requests).nonempty? = some u := by
        simpa [happ, hasks, Except.map] using h
      refine ⟨happ, requests, rfl, ?_, ?_⟩
      · by_contra hno
        have hnone : (Update.ofRequests t requests).nonempty? = none :=
          Update.nonempty?_ofRequests_eq_none.2 fun q hq => by
            simpa using fun hc => hno ⟨q, hq, hc⟩
        rw [hnone] at hu
        cases hu
      · unfold Update.nonempty? at hu
        split at hu
        · cases hu
        · exact (Option.some.inj hu).symm
  · simp [happ] at h

theorem run_commit (ht : t.Sound) {u : Update} (hu : u.Fits t.size) :
    (Flow.commit u).run t = (.ok (), u.result t) := by
  obtain ⟨⟨k, hk⟩, -⟩ := Update.run_apply ht hu
  rw [Flow.commit, Run.run_bind_of_ok hk]
  rfl

/-- On a sound table a firing is the result of the update that takes up the requests. -/
theorem eq_result_of_fires (ht : t.Sound)
    (hcanonical : ∀ requests, r.asks t n = .ok requests → ∀ q ∈ requests, q.Canonical)
    (h : Rule.Fires Flow.commit r.toRule n t t') : r.applies n ∧ ∃ requests,
      r.asks t n = .ok requests ∧ (∃ q ∈ requests, q.changes t) ∧
        t' = (Update.ofRequests t requests).result t := by
  obtain ⟨u, hfire, hcommit⟩ := h
  obtain ⟨happ, requests, hasks, hchanges, rfl⟩ := fire?_eq_some hfire
  refine ⟨happ, requests, hasks, hchanges, ?_⟩
  rw [run_commit ht (Update.fits_ofRequests ht (hcanonical requests hasks))] at hcommit
  simpa [eq_comm] using hcommit

/-- On a sound table a rule fails only if it cannot say what it asks for. -/
theorem asks_of_fails (ht : t.Sound)
    (hcanonical : ∀ requests, r.asks t n = .ok requests → ∀ q ∈ requests, q.Canonical)
    {fault : Fault} (h : Rule.Fails Flow.commit r.toRule n t fault t') :
    r.applies n ∧ r.asks t n = .error fault := by
  rcases h with ⟨hfire, -⟩ | ⟨u, hfire, hcommit⟩
  · rw [fire?_toRule] at hfire
    by_cases happ : r.applies n
    · cases hasks : r.asks t n with
      | error fault' =>
        obtain rfl : fault' = fault := by simpa [happ, hasks, Except.map] using hfire
        exact ⟨happ, rfl⟩
      | ok requests => simp [happ, hasks, Except.map] at hfire
    · simp [happ] at hfire
  · obtain ⟨-, requests, hasks, -, rfl⟩ := fire?_eq_some hfire
    rw [run_commit ht (Update.fits_ofRequests ht (hcanonical requests hasks))] at hcommit
    simp at hcommit

/-- On a sound table a firing keeps the table sound and nodes at their slots. -/
theorem sound_of_fires (ht : t.Sound)
    (hcanonical : ∀ requests, r.asks t n = .ok requests → ∀ q ∈ requests, q.Canonical)
    (h : Rule.Fires Flow.commit r.toRule n t t') :
    t'.Sound ∧ t'.size = t.size ∧ ∀ m, t'.slot? m = t.slot? m := by
  obtain ⟨-, requests, hasks, -, rfl⟩ := eq_result_of_fires ht hcanonical h
  obtain ⟨-, ht', hsize⟩ := Update.run_apply ht (Update.fits_ofRequests ht (hcanonical _ hasks))
  exact ⟨ht', hsize, Update.slot?_result _ t⟩

end FlowRule

end TypeFlow
