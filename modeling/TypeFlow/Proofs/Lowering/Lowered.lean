import TypeFlow.Proofs.Lowering.Completeness
import TypeFlow.Proofs.Lowering.Planned
/-!
# What lowering makes of a composed program

Each firing of a rule carries a plan out, so that the sweep keeps a program composed
(`keeps_composed`). No surface form is left in the end, and what is composed without surface forms
is lowered (`run_lowered`). Nodes are numbered by 32 bits; a program that outgrows these numbers on
the way is out of scope.
-/

namespace TypeFlow

namespace Lowering

open TypeFlow.Graph Program

variable {g g' : Graph} {root n : NodeId} {r : GraphRule} {f : SurfaceKind}

/-! ## Firings -/

/-- A rule drafts plans at its tasks in composed programs. -/
def Drafts (root : NodeId) (r : GraphRule) (f : SurfaceKind) : Prop :=
  ∀ {g : Graph} {n : NodeId}, Parsed g root → Composed g root → g.size ≤ 2 ^ 32 →
    g.Below root n → task? g n = some f → Plans r g root n

theorem drafts_foldOperators : Drafts root foldOperators .operatorSeq := fun hp hc _ hn hf =>
  plans_foldOperators hp hc hn ((task?_eq_some_form rfl).1 hf)

theorem drafts_lowerDotPipe : Drafts root lowerDotPipe .dotPipe := fun hp hc hsmall hn hf =>
  plans_lowerDotPipe hp hc hsmall hn ((task?_eq_some_form rfl).1 hf)

theorem drafts_lowerDotted : Drafts root lowerDotted .dotted := fun hp hc _ hn hf =>
  plans_lowerDotted hp hc hn ((task?_eq_some_form rfl).1 hf)

theorem drafts_collectKeywordArgs : Drafts root collectKeywordArgs .kwArg :=
  fun hp hc hsmall hn hf => plans_collectKeywordArgs hp hc hsmall hn (task?_eq_some_kwArg.1 hf).1

theorem drafts_lowerForIn : Drafts root lowerForIn .forIn := fun hp hc _ hn hf =>
  plans_lowerForIn hp hc hn ((task?_eq_some_form rfl).1 hf)

/-- A firing of a rule at a node carries a plan out, which does the task there. -/
structure Fired (r : GraphRule) (g : Graph) (root n : NodeId) (turned : List NodeId) (p : Patch) :
    Prop where
  effect : r.effect g n = .ok (some p)
  plan : Plan g root turned p
  commits : (Graph.commit p).run g = (.ok (), carriedOut g p)
  composed : Composed (carriedOut g p) root
  lowers : Lowers g root n (carriedOut g p)

/-- While a program can be numbered, a property that makes it composed is kept by a rule that drafts
plans, if it is kept where a plan is carried out. -/
theorem keeps_of_fired {I : Graph → Prop} (hr : Handles r f) (hd : Drafts root r f)
    (hcomposed : ∀ {g}, I g → Composed g root)
    (hstep : ∀ {g n turned p}, Parsed g root → g.Below root n → task? g n = some f →
      Fired r g root n turned p → I g → I (carriedOut g p)) :
    Keeps root (fun g => g.size ≤ 2 ^ 32 → I g) r f := by
  intro g g' n hp hn hf htry hg hsmall
  obtain ⟨p, heffect, g₁, hcommit, hlowers⟩ := hr.fires hp hn hf
  have hfire : r.fire? g n = .ok (some p) := by
    rw [Rule.fire?, if_pos ((hr.applies hp hn).2 hf), heffect]
  obtain rfl : g₁ = g' := by
    rw [Rule.tryAt, Run.run_bind_of_ok Run.run_get, hfire, Run.run_bind_of_ok hcommit] at htry
    exact (Prod.mk.inj htry).2
  have hbefore : g.size ≤ 2 ^ 32 := Nat.le_trans (size_le_commit hcommit) hsmall
  have hc : Composed g root := hcomposed (hg hbefore)
  obtain ⟨turned, q, hplanned, hplan⟩ := hd hp hc hbefore hn hf
  obtain rfl : p = q := Option.some.inj (Except.ok.inj (heffect.symm.trans hplanned))
  have hrun := hplan.run_commit hc hp.has_root
  obtain ⟨g₂, hrun', hcomposed'⟩ := hplan.composed hc hp.has_root
  obtain rfl : carriedOut g p = g₁ := (Prod.mk.inj (hrun.symm.trans hcommit)).2
  obtain rfl : carriedOut g p = g₂ := (Prod.mk.inj (hrun.symm.trans hrun')).2
  exact hstep hp hn hf ⟨heffect, hplan, hrun, hcomposed', hlowers⟩ (hg hbefore)

/-! ## The run -/

/-- A program is composed as long as its nodes can be numbered. -/
def StaysComposed (root : NodeId) (g : Graph) : Prop := g.size ≤ 2 ^ 32 → Composed g root

/-- Every firing of a rule of lowering keeps the program composed. -/
theorem keeps_composed : List.Forall₂ (Keeps root (StaysComposed root)) rules taskKinds := by
  have hkeeps : ∀ {r f}, Handles r f → Drafts root r f → Keeps root (StaysComposed root) r f :=
    fun hr hd => keeps_of_fired hr hd id fun _ _ _ hfired _ => hfired.composed
  exact .cons (hkeeps handles_foldOperators drafts_foldOperators)
    (.cons (hkeeps handles_lowerDotPipe drafts_lowerDotPipe)
      (.cons (hkeeps handles_lowerDotted drafts_lowerDotted)
        (.cons (hkeeps handles_collectKeywordArgs drafts_collectKeywordArgs)
          (.cons (hkeeps handles_lowerForIn drafts_lowerForIn) .nil))))

/-- A parsed program that is composed is lowered by the run. -/
theorem run_lowered (hp : Parsed g root) (hc : Composed g root) : ∃ k g',
    (run root).run g = (.ok k, g') ∧
      (g'.size ≤ 2 ^ 32 → Lowered g' root ∧ Composed g' root) := by
  obtain ⟨g', ns, hsweep, hdone, hns, hcomposed⟩ :=
    sweep_keeps handles_rules keeps_composed (by decide) hp fun _ => hc
  have hsurface := hdone.not_isSurface hns
  refine ⟨(taskKinds.map fun f => (tasksOf g root f).length).sum, g', ?_, fun hsmall => ?_⟩
  · rw [run, Run.run_bind_of_ok hsweep, Run.run_bind_of_ok Run.run_get,
      leftOver?_eq_none hsurface]
    rfl
  · have hcomposed' := hcomposed hsmall
    exact ⟨hcomposed'.lowered hsurface hdone.parsed hsmall, hcomposed'⟩

end Lowering

end TypeFlow
