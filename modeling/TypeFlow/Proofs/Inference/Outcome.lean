import TypeFlow.Inference
import TypeFlow.Proofs.Run
/-!
# The outcome of an inference

Inference works on the graph with a return slot in every function (`withReturnSlots`): it seeds a
table, runs the flow rules on it and colors the graph from it, and each of these steps may stop it
(`run_eq`).
-/

namespace TypeFlow

namespace Inference

/-- The graph in which every function below a root has a slot for what it returns. -/
def withReturnSlots (g : Graph) (root : NodeId) : Graph := ((addReturnSlots root).run g).2

/-- The steps of an inference, up to the first that fails. -/
theorem run_eq (g : Graph) (root : NodeId) (ceiling : Nat) (allow : Bool) :
    (run root ceiling allow).run g =
      match seeded (withReturnSlots g root) root allow with
      | .error fault => (.error fault, withReturnSlots g root)
      | .ok seeds =>
        match settled (withReturnSlots g root) root ceiling seeds with
        | .error fault => (.error fault, withReturnSlots g root)
        | .ok (stats, t) =>
          match (Graph.colorAll t (typable (withReturnSlots g root) root)).run
            (withReturnSlots g root) with
          | (.error fault, g') => (.error fault, g')
          | (.ok colors, g') => (.ok ⟨stats, t.size, colors⟩, g') := by
  have hslots : (liftM (addReturnSlots root) : Run Graph Unit).run g =
      (.ok (), withReturnSlots g root) := rfl
  rw [run, Run.run_bind_of_ok hslots, Run.run_bind_of_ok Run.run_get, Run.run_bind,
    Run.run_ofExcept]
  rcases seeded (withReturnSlots g root) root allow with fault | seeds
  · rfl
  · dsimp only
    rw [Run.run_bind, Run.run_ofExcept]
    rcases settled (withReturnSlots g root) root ceiling seeds with fault | ⟨stats, t⟩
    · rfl
    · dsimp only
      rw [Run.run_bind]
      rcases (Graph.colorAll t (typable (withReturnSlots g root) root)).run
        (withReturnSlots g root) with ⟨fault | colors, g'⟩ <;> rfl

section Rules

variable {g : Graph} {root : NodeId} {ceiling : Nat} {seeds : BoundsTable}

/-- The run in which the flow rules come to rest. -/
theorem run_of_settled {stats : Stats} {t : BoundsTable}
    (h : settled g root ceiling seeds = .ok (stats, t)) :
    (Rule.fixpoint Flow.commit ((Flow.rules g (Flow.classMethods g root)).map FlowRule.toRule)
      (g.reachable root fun _ => true) ceiling).run seeds = (.ok stats, t) := by
  unfold settled at h
  dsimp only at h
  split at h
  · next hrun =>
    obtain ⟨rfl, rfl⟩ := Prod.mk.inj (Except.ok.inj h)
    exact hrun
  · cases h

/-- The run in which the flow rules stop without coming to rest. -/
theorem run_of_unsettled {fault : Fault} (h : settled g root ceiling seeds = .error fault) :
    ∃ t, (Rule.fixpoint Flow.commit
      ((Flow.rules g (Flow.classMethods g root)).map FlowRule.toRule)
      (g.reachable root fun _ => true) ceiling).run seeds = (.error fault, t) := by
  unfold settled at h
  dsimp only at h
  split at h
  · cases h
  · next t hrun =>
    obtain rfl := Except.error.inj h
    exact ⟨t, hrun⟩

end Rules

/-- An inference that ends well ends all its steps well. -/
theorem run_eq_ok {g g' : Graph} {root : NodeId} {ceiling : Nat} {allow : Bool} {report : Report} :
    (run root ceiling allow).run g = (.ok report, g') ↔ ∃ seeds stats t colors,
      seeded (withReturnSlots g root) root allow = .ok seeds ∧
        settled (withReturnSlots g root) root ceiling seeds = .ok (stats, t) ∧
          (Graph.colorAll t (typable (withReturnSlots g root) root)).run (withReturnSlots g root) =
            (.ok colors, g') ∧ report = ⟨stats, t.size, colors⟩ := by
  rw [run_eq]
  rcases seeded (withReturnSlots g root) root allow with fault | seeds
  · simp
  · dsimp only
    rcases hsettled : settled (withReturnSlots g root) root ceiling seeds with
      fault | ⟨stats, t⟩
    · simp [hsettled]
    · dsimp only
      rcases hcolors : (Graph.colorAll t (typable (withReturnSlots g root) root)).run
        (withReturnSlots g root) with ⟨fault | colors, g''⟩
      · simp [hsettled, hcolors]
      · simp [hsettled, hcolors, eq_comm, and_comm]

end Inference

end TypeFlow
