import TypeFlow.Proofs.Local
import TypeFlow.Proofs.Rule.Fixpoint
/-!
# Rules that fire once at a node

Where a firing at a node ends all that the rules can do there, and changes nothing of what they can
do elsewhere (`FiresOnce`), one round does everything: the rules are quiet behind it
(`FiresOnce.quiet_of_pass`), and a run with a ceiling above zero is through after a second round at
the latest (`FiresOnce.keeps_fixpoint`).
-/

namespace TypeFlow

namespace Rule

variable {σ π : Type} {commit : Commit σ π} {rules : List (Rule σ π)} {nodes : List NodeId}
  {ps : List (Rule σ π × NodeId)} {s₀ s s' : σ} {k : Nat}

/-- A pass that is quiet at every try stays where it is. -/
theorem Pass.of_quiet (h : Pass commit ps s k s') (hquiet : ∀ p ∈ ps, p.1.fire? s p.2 = .ok none) :
    k = 0 ∧ s' = s := by
  induction h with
  | done => exact ⟨rfl, rfl⟩
  | quiet _ _ ih => exact ih fun p hp => hquiet p (List.mem_cons_of_mem _ hp)
  | fires hf _ _ =>
    obtain ⟨p, hp, -⟩ := hf
    have hnone := hquiet _ List.mem_cons_self
    rw [hp] at hnone
    cases hnone

/-- From the state `s₀`, states with the invariant `I` come about by firings that do not fail for
want of rounds. A firing spends its node; at a spent node no rule has anything to do any more, and
at any other each rule has to do what it had to do in `s₀`. -/
structure FiresOnce (commit : Commit σ π) (rules : List (Rule σ π)) (s₀ : σ) (I : σ → Prop)
    (Spent : σ → NodeId → Prop) : Prop where
  step : ∀ r ∈ rules, ∀ n s s', I s → Fires commit r n s s' →
    I s' ∧ Spent s' n ∧ ∀ m, Spent s m → Spent s' m
  spent : ∀ r ∈ rules, ∀ n s, I s → Spent s n → r.fire? s n = .ok none
  unspent : ∀ r ∈ rules, ∀ n s, I s → ¬Spent s n → r.fire? s n = r.fire? s₀ n
  fault : ∀ r ∈ rules, ∀ n s fault s', I s → Fails commit r n s fault s' →
    fault.isDiverged = false ∧ I s'

namespace FiresOnce

variable {I : σ → Prop} {Spent : σ → NodeId → Prop}

/-- Behind a pass no try of it has anything left to do. -/
theorem quiet_of_pass (H : FiresOnce commit rules s₀ I Spent) (h : Pass commit ps s k s')
    (hps : ∀ p ∈ ps, p.1 ∈ rules) (hs : I s) :
    I s' ∧ (∀ m, Spent s m → Spent s' m) ∧ ∀ p ∈ ps, p.1.fire? s' p.2 = .ok none := by
  induction h with
  | done => exact ⟨hs, fun _ hm => hm, by simp⟩
  | @quiet r n ps s s' k hq _ ih =>
    obtain ⟨hr, hps⟩ := List.forall_mem_cons.1 hps
    obtain ⟨hs', hmono, hquiet⟩ := ih hps hs
    refine ⟨hs', hmono, List.forall_mem_cons.2 ⟨?_, hquiet⟩⟩
    by_cases hspent : Spent s' n
    · exact H.spent r hr n s' hs' hspent
    · -- the node is untouched since the try
      have hbefore : ¬Spent s n := fun h => hspent (hmono n h)
      have hsame := (H.unspent r hr n s' hs' hspent).trans (H.unspent r hr n s hs hbefore).symm
      exact hsame.trans hq
  | @fires r n ps s s' s'' k hf _ ih =>
    obtain ⟨hr, hps⟩ := List.forall_mem_cons.1 hps
    obtain ⟨hs', hspent, hmono⟩ := H.step r hr n s s' hs hf
    obtain ⟨hs'', hmono', hquiet⟩ := ih hps hs'
    exact ⟨hs'', fun m hm => hmono' m (hmono m hm),
      List.forall_mem_cons.2 ⟨H.spent r hr n s'' hs'' (hmono' n hspent), hquiet⟩⟩

/-- A round is a pass, or it stops at a fault that is not for want of rounds. -/
theorem keeps_round (H : FiresOnce commit rules s₀ I Spent) (hs : I s) :
    Run.Keeps (round commit rules nodes) s I fun done s' =>
      ∃ k, Pass commit (tries rules nodes) s k s' ∧ (done.last? = none ↔ k = 0) := by
  refine Run.keeps_iff.2 ⟨fun _ _ h => pass_of_round h, fun fault s' h => ?_⟩
  obtain ⟨ps, qs, p, k, t, hsplit, hpass, hfails⟩ := fails_of_alongRules h
  have hmem : ∀ q ∈ ps ++ p :: qs, q.1 ∈ rules := fun q hq =>
    (mem_tries.1 (hsplit ▸ hq)).1
  have ht : I t := (H.quiet_of_pass hpass (fun q hq => hmem q (by simp [hq])) hs).1
  exact H.fault p.1 (hmem p (by simp)) p.2 t fault s' ht hfails

/-- With a ceiling above zero a run does not go past it: at most one round fires, and at most one
more looks whether anything is left. -/
theorem keeps_fixpoint (H : FiresOnce commit rules s₀ I Spent) (hs : I s) {ceiling : Nat}
    (hceiling : 1 ≤ ceiling) :
    Run.Keeps (fixpoint commit rules nodes ceiling) s I fun stats s' =>
      I s' ∧ (∀ r ∈ rules, ∀ n ∈ nodes, r.fire? s' n = .ok none) ∧
        stats.productive ≤ 1 ∧ stats.rounds ≤ 2 := by
  obtain ⟨left, rfl⟩ : ∃ left, ceiling = left + 1 := ⟨ceiling - 1, by omega⟩
  rw [fixpoint, settle]
  refine (H.keeps_round hs).bind ?_
  rintro done t ⟨k, hpass, -⟩
  obtain ⟨ht, -, hquiet⟩ := H.quiet_of_pass hpass (fun p hp => (mem_tries.1 hp).1) hs
  have hdone : ∀ r ∈ rules, ∀ n ∈ nodes, r.fire? t n = .ok none :=
    fun r hr n hn => hquiet (r, n) (mem_tries.2 ⟨hr, hn⟩)
  cases done.last? with
  | none => exact Run.keeps_pure ⟨ht, hdone, by simp, by simp⟩
  | some last =>
    -- the second round finds nothing to do
    simp only
    rw [settle]
    refine (H.keeps_round ht).bind ?_
    rintro done' t' ⟨l, hpass', hlast⟩
    obtain ⟨hl, rfl⟩ := hpass'.of_quiet hquiet
    rw [hlast.2 hl]
    exact Run.keeps_pure ⟨ht, hdone, by simp, by simp⟩

end FiresOnce

end Rule

end TypeFlow
