import TypeFlow.Proofs.Run
import TypeFlow.Rule.Fixpoint
/-!
# Rules that do alike

Runs of rules of the same names do the same, if in all states that the tries lead to they have the
same to do at the nodes of the run (`run_fixpoint_congr`).
-/

namespace TypeFlow

namespace Rule

variable {σ π : Type} {commit : Commit σ π} {I : σ → Prop} {nodes : List NodeId}
  {r r' : Rule σ π} {rules rules' : List (Rule σ π)} {n : NodeId} {s : σ}

/-- Two rules of one name with the same to do at nodes, in states with an invariant that tries of
the first one preserve. -/
structure Alike (commit : Commit σ π) (I : σ → Prop) (nodes : List NodeId) (r r' : Rule σ π) :
    Prop where
  name : r'.name = r.name
  fire? : ∀ n ∈ nodes, ∀ s, I s → r'.fire? s n = r.fire? s n
  step : ∀ n ∈ nodes, ∀ s, I s → I ((r.tryAt commit n).run s).2

theorem run_tryAt_congr (h : r'.fire? s n = r.fire? s n) :
    (r'.tryAt commit n).run s = (r.tryAt commit n).run s := by
  rw [tryAt, tryAt, Run.run_bind_of_ok Run.run_get, Run.run_bind_of_ok Run.run_get, h]

theorem run_alongNodes_congr (h : Alike commit I nodes r r') : ∀ {ns : List NodeId},
    (∀ n ∈ ns, n ∈ nodes) → ∀ (done : Round) {s : σ}, I s →
      (r'.alongNodes commit ns done).run s = (r.alongNodes commit ns done).run s ∧
        I ((r.alongNodes commit ns done).run s).2
  | [], _, _, _, hs => ⟨rfl, hs⟩
  | n :: ns, hns, done, s, hs => by
    obtain ⟨hn, hns⟩ := List.forall_mem_cons.1 hns
    have hstep := h.step n hn s hs
    rw [alongNodes, alongNodes, Run.run_bind, Run.run_bind, run_tryAt_congr (h.fire? n hn s hs)]
    rcases hrun : (r.tryAt commit n).run s with ⟨fault | _ | _, s'⟩ <;> rw [hrun] at hstep
    · exact ⟨rfl, hstep⟩
    · exact run_alongNodes_congr h hns _ hstep
    · rw [h.name]
      exact run_alongNodes_congr h hns _ hstep

theorem run_alongRules_congr (h : List.Forall₂ (Alike commit I nodes) rules rules') :
    ∀ (done : Round) {s : σ}, I s →
      (alongRules commit nodes rules' done).run s = (alongRules commit nodes rules done).run s ∧
        I ((alongRules commit nodes rules done).run s).2 := by
  induction h with
  | nil => exact fun _ _ hs => ⟨rfl, hs⟩
  | @cons r r' rs rs' halike _ ih =>
    intro done s hs
    obtain ⟨hnodes, hstep⟩ := run_alongNodes_congr halike (fun _ hn => hn) done hs
    rw [alongRules, alongRules, Run.run_bind, Run.run_bind, hnodes]
    rcases hrun : (r.alongNodes commit nodes done).run s with ⟨fault | done', s'⟩ <;>
      rw [hrun] at hstep
    · exact ⟨rfl, hstep⟩
    · exact ih _ hstep

theorem run_settle_congr (h : List.Forall₂ (Alike commit I nodes) rules rules') :
    ∀ {left : Nat} {stats : Stats} {s : σ}, I s →
      (settle commit rules' nodes left stats).run s = (settle commit rules nodes left stats).run s
  | left, stats, s, hs => by
    obtain ⟨hround, hstep⟩ := run_alongRules_congr h ⟨0, none⟩ hs
    rw [settle, settle, round, round, Run.run_bind, Run.run_bind, hround]
    rcases hrun : (alongRules commit nodes rules ⟨0, none⟩).run s with ⟨fault | done, s'⟩
    · rfl
    · rw [hrun] at hstep
      dsimp only
      cases done.last? with
      | none => rfl
      | some last =>
        cases left with
        | zero => rfl
        | succ left => exact run_settle_congr h hstep

/-- Rules that do alike run alike. -/
theorem run_fixpoint_congr (h : List.Forall₂ (Alike commit I nodes) rules rules') {ceiling : Nat}
    (hs : I s) : (fixpoint commit rules' nodes ceiling).run s =
      (fixpoint commit rules nodes ceiling).run s := run_settle_congr h hs

end Rule

end TypeFlow
